import MiniStore.Lib.Sharded
import MiniStore.Store.Sweeps

/-!
# Runs key by key

As long as the operations name no more keys than the store may hold, none is evicted, and an
operation sees and changes nothing but its own key. The store then is one small machine for each
key (`Op.act`), so what is answered for a key is what a store would answer that is never asked
for another one, and has room for one key only (`keys_independent`). In particular a key stays as
it was left until its deadline, and is gone from then on (`deadline_honoured`).
-/

namespace MiniStore

open InMemoryStore Trace Sharded

/-- The machine of one key: what an operation leaves of its cell, and what it answers. -/
def Op.act (c : Option Cell) (o : Op × Clock) : Option Cell × OpResult :=
  let c := liveAt (o.2 0) c
  (match o.1.effect o.2 with
    | some (_, f) => (f c).action.onCell c
    | none => c, o.1.answer o.2 c)

namespace InMemoryStore

def serve (s : InMemoryStore) (o : Op × Clock) : InMemoryStore × OpResult := o.1.run s o.2

def keyOf (o : Op × Clock) : Option Str := o.1.key

def cellAt (s : InMemoryStore) (key : Option Str) : Option Cell := key.bind s.cell

def Names (names : List Str) (o : Op × Clock) : Prop := ∃ key ∈ names, o.1.key = some key

/-- The store has room for all the keys, and holds no others. -/
structure HasRoom (names : List Str) (s : InMemoryStore) : Prop where
  lockstep : s.Lockstep
  room : names.length ≤ s.maxKeys
  held : ∀ k, s.cell k ≠ none → k ∈ names

theorem hasRoom_create {names : List Str} {maxKeys : Nat} (hm : 1 ≤ maxKeys)
    (hroom : names.length ≤ maxKeys) : HasRoom names (create maxKeys hm) :=
  ⟨lockstep_create maxKeys hm, hroom, fun _ hk => absurd rfl hk⟩

theorem answered_serve (ops : List (Op × Clock)) : ∀ s : InMemoryStore,
    (answered serve s ops).1 = runAll s ops := by
  induction ops with
  | nil => exact fun _ => rfl
  | cons o ops ih => exact fun s => ih (serve s o).1

section

variable {names : List Str} {s : InMemoryStore} (h : HasRoom names s) {op : Op} (now : Clock)
  {key : Str} (hn : key ∈ names)

include h hn

theorem HasRoom.no_victim (e : Effect) :
    (s.purge key (now 0)).view.evicted (s.purge key (now 0)).maxKeys key e.action = none := by
  have hp := h.lockstep.purge key (now 0)
  cases e with
  | put v d b =>
    refine (LruCache.victim_eq_none (s.purge key (now 0)).maxKeys_pos).mpr ?_
    by_cases hc : (s.purge key (now 0)).cell key = none
    · refine .inr ?_
      -- the keys held are names other than this one
      have hsub : ∀ k, (s.purge key (now 0)).cell k ≠ none → k ∈ names.erase key := by
        intro k hk
        have hne : k ≠ key := fun e => hk (e ▸ hc)
        rw [h.lockstep.cell_purge, if_neg hne] at hk
        exact (List.mem_erase_of_ne hne).mpr (h.held k hk)
      have hsize := hp.size_le_of_subset hsub
      have hlen : (s.purge key (now 0)).view.order.length = (s.purge key (now 0)).size :=
        hp.length_order
      have hroom := h.room
      have hpos := List.length_pos_of_mem hn
      rw [List.length_erase_of_mem hn] at hsize
      rw [hlen, maxKeys_purge]
      omega
    · exact .inl ((hp.view_wf.mem key).mpr hc)
  | keep | touch | remove => rfl

theorem HasRoom.cell_perform {α : Type} (f : Option Cell → Effect × α) (k : Str) :
    (s.perform key now f).1.cell k = if k = key
      then (f (liveAt (now 0) (s.cell key))).1.action.onCell (liveAt (now 0) (s.cell key))
      else s.cell k := by
  unfold InMemoryStore.perform
  dsimp only
  rw [cell_commit_of_no_victim (h.lockstep.purge key (now 0)) (now 1) (h.no_victim now hn _),
    h.lockstep.cell_purge_self, h.lockstep.cell_purge]
  split <;> rfl

theorem HasRoom.perform {α : Type} {f : Option Cell → Effect × α} (hf : ∀ c, (f c).1.Fits c) :
    HasRoom names (s.perform key now f).1 := by
  refine ⟨h.lockstep.perform hf, ?_, fun k hk => ?_⟩
  · rw [h.lockstep.maxKeys_perform]
    exact h.room
  · rw [h.cell_perform now hn] at hk
    split at hk
    · next e => exact e ▸ hn
    · exact h.held k hk

variable (hkey : op.key = some key)

include hkey

/-- An operation leaves every other key alone, and of its own what the machine of one key does. -/
theorem HasRoom.cell_run (k : Str) : (op.run s now).1.cell k =
    if k = key then (Op.act (s.cell key) (op, now)).1 else s.cell k := by
  obtain ⟨f, he⟩ := Op.effect_of_key hkey now
  rw [Op.run_effect h.lockstep he]
  refine (h.cell_perform now hn (fun c => (f c, ())) k).trans ?_
  split
  · simp only [Op.act, he]
  · rfl

theorem HasRoom.run : HasRoom names (op.run s now).1 := by
  obtain ⟨f, he⟩ := Op.effect_of_key hkey now
  rw [Op.run_effect h.lockstep he]
  exact h.perform now hn (f := fun c => (f c, ())) fun c => Op.effect_fits he c

end

theorem HasRoom.runAll {names : List Str} (ops : List (Op × Clock)) : ∀ {s : InMemoryStore},
    HasRoom names s → (∀ o ∈ ops, Names names o) → HasRoom names (runAll s ops) := by
  induction ops with
  | nil => exact fun h _ => h
  | cons o ops ih =>
    intro s h hnames
    obtain ⟨⟨key, hn, hkey⟩, hnames⟩ := List.forall_mem_cons.mp hnames
    exact ih (h.run o.2 hn hkey) hnames

/-- Below its capacity the store works key by key. -/
theorem byKey (names : List Str) :
    ByKey (HasRoom names) (Names names) serve keyOf cellAt Op.act where
  keeps := by
    rintro s ⟨op, now⟩ h ⟨key, hn, hkey⟩
    exact h.run now hn hkey
  own := by
    rintro s ⟨op, now⟩ h ⟨key, hn, hkey⟩
    have hcell := (h.cell_run now hn hkey key).trans (if_pos rfl)
    have hanswer := Op.run_snd h.lockstep hkey now
    have hkeyOf : keyOf (op, now) = some key := hkey
    rw [hkeyOf]
    exact Prod.ext hcell hanswer
  other := by
    rintro s ⟨op, now⟩ k h ⟨key, hn, hkey⟩ hk
    cases k with
    | none => rfl
    | some k =>
      have hne : k ≠ key := fun e => hk (by rw [e]; exact hkey.symm)
      exact (h.cell_run now hn hkey k).trans (if_neg hne)

end InMemoryStore

/-- For every capacity and every run of operations on at most so many keys, at any times: what the
operations on a key answer, and what is left under it, is what a new store with a single slot
answers and is left with that gets those operations only. -/
theorem keys_independent (maxKeys : Nat) (hm : 1 ≤ maxKeys) (names : List Str)
    (hroom : names.length ≤ maxKeys) (ops : List (Op × Clock))
    (hnames : ∀ o ∈ ops, Names names o) (k : Str) :
    answersFor keyOf (some k) ops (answered serve (create maxKeys hm) ops).2 =
        (answered serve (create 1 Nat.one_pos) (eventsFor keyOf (some k) ops)).2 ∧
      (runAll (create maxKeys hm) ops).cell k =
        (runAll (create 1 Nat.one_pos) (eventsFor keyOf (some k) ops)).cell k := by
  have halone : ∀ o ∈ ops, keyOf o = some k → Names [k] o := fun o _ ho =>
    ⟨k, List.mem_singleton.mpr rfl, ho⟩
  obtain ⟨hcell, hanswers⟩ := (byKey names).independent (byKey [k]) (hasRoom_create hm hroom)
    (hasRoom_create Nat.one_pos (Nat.le_refl 1)) hnames halone rfl
  rw [answered_serve, answered_serve] at hcell
  exact ⟨hanswers, hcell⟩

/-- Two keys in turn, one of which expires in between. -/
def twoKeysInTurn : List (Op × Clock) :=
  [(.set ['a'] ['1'] (some 1), Clock.still 0), (.rpush ['b'] [['x']], Clock.still 10),
    (.get ['a'], Clock.still 500), (.lpop ['b'], Clock.still 1000),
    (.exists ['a'], Clock.still 1000)]

theorem names_twoKeysInTurn : ∀ o ∈ twoKeysInTurn, Names [['a'], ['b']] o := by
  unfold twoKeysInTurn Names
  simp [Op.key]

theorem keys_independent_twoKeysInTurn :
    answersFor keyOf (some ['a']) twoKeysInTurn
        (answered serve (create 2 Nat.two_pos) twoKeysInTurn).2 =
      [.done, .found (some ['1']), .flag false] :=
  (keys_independent 2 Nat.two_pos [['a'], ['b']] (Nat.le_refl 2) twoKeysInTurn names_twoKeysInTurn
    ['a']).1.trans (by decide)

/-! ## Up to the deadline -/

/-- The operations that only read their key. -/
def Op.reads : Op → Bool
  | .get _ | .exists _ | .ttl _ | .keyType _ | .lrange .. | .llen _ | .hget .. | .hgetall _
  | .hlen _ => true
  | _ => false

theorem Op.act_reads {op : Op} (hr : op.reads = true) (now : Clock) (c : Option Cell) :
    (Op.act c (op, now)).1 = liveAt (now 0) c := by
  have hkeep : ∀ {e : Effect}, e = .keep ∨ e = .touch → e.action.onCell (liveAt (now 0) c) =
      liveAt (now 0) c := by
    rintro e (rfl | rfl) <;> rfl
  cases op with
  | get => exact hkeep (reads_getCell _)
  | ttl => exact hkeep (reads_ttlCell (now 1) _)
  | «exists» | keyType => rfl
  | lrange | llen | hget | hgetall | hlen => exact hkeep (reads_readCell _ _ _ _)
  | _ => cases hr

namespace InMemoryStore

theorem runAt_append (s : InMemoryStore) (ops ops' : List (Op × Int)) :
    runAt s (ops ++ ops') = runAt (runAt s ops) ops' := by
  rw [runAt, List.map_append, runAll, List.foldl_append]
  rfl

theorem HasRoom.liveAt_runAt {names : List Str} {k : Str} {t : Int} (ops : List (Op × Int))
    (hnames : ∀ o ∈ ops, Names names (o.1, Clock.still o.2))
    (hreads : ∀ o ∈ ops, o.1.key = some k → o.1.reads = true) (hle : ∀ o ∈ ops, o.2 ≤ t) :
    ∀ {s : InMemoryStore}, HasRoom names s →
      HasRoom names (runAt s ops) ∧ liveAt t ((runAt s ops).cell k) = liveAt t (s.cell k) := by
  induction ops with
  | nil => exact fun h => ⟨h, rfl⟩
  | cons o ops ih =>
    intro s h
    obtain ⟨op, u⟩ := o
    obtain ⟨⟨key, hn, hkey⟩, hnames⟩ := List.forall_mem_cons.mp hnames
    obtain ⟨hr, hreads⟩ := List.forall_mem_cons.mp hreads
    obtain ⟨hu, hle⟩ := List.forall_mem_cons.mp hle
    obtain ⟨hend, hcell⟩ := ih hnames hreads hle (h.run (Clock.still u) hn hkey)
    refine ⟨hend, hcell.trans ?_⟩
    rw [h.cell_run (Clock.still u) hn hkey]
    split
    · next e =>
      rw [Op.act_reads (hr (e ▸ hkey)), e]
      exact liveAt_liveAt hu _
    · rfl

end InMemoryStore

/-- For every capacity and every run on at most so many keys: as long as what follows reads a key
only, at times in order, and whatever it does to others, each read finds the key as it was left
until its deadline, and finds nothing from then on. -/
theorem deadline_honoured (maxKeys : Nat) (hm : 1 ≤ maxKeys) (names : List Str)
    (hroom : names.length ≤ maxKeys) (before after : List (Op × Int))
    (hnames : ∀ o ∈ before ++ after, Names names (o.1, Clock.still o.2)) (k : Str) (c : Cell)
    (hc : (runAt (create maxKeys hm) before).cell k = some c)
    (hreads : ∀ o ∈ after, o.1.key = some k → o.1.reads = true)
    (hsorted : after.Pairwise fun a b => a.2 ≤ b.2) (past : List (Op × Int)) (op : Op) (t : Int)
    (hpast : past ++ [(op, t)] <+: after) (hkey : op.key = some k) :
    (op.run (runAt (create maxKeys hm) (before ++ past)) (Clock.still t)).2 =
      op.answer (Clock.still t) (if c.expired t then none else some c) := by
  have hbefore : HasRoom names (runAt (create maxKeys hm) before) := by
    refine (hasRoom_create hm hroom).runAll _ fun o ho => ?_
    obtain ⟨o', ho', rfl⟩ := List.mem_map.mp ho
    exact hnames o' (List.mem_append_left _ ho')
  obtain ⟨rest, rfl⟩ := hpast
  have hmem : ∀ o ∈ past, o ∈ past ++ [(op, t)] ++ rest := fun o ho =>
    List.mem_append_left _ (List.mem_append_left _ ho)
  have hle : ∀ o ∈ past, o.2 ≤ t := fun o ho =>
    (List.pairwise_append.mp (List.pairwise_append.mp hsorted).1).2.2 o ho _
      (List.mem_singleton.mpr rfl)
  obtain ⟨h, hcell⟩ := hbefore.liveAt_runAt past
    (fun o ho => hnames o (List.mem_append_right _ (hmem o ho))) (fun o ho => hreads o (hmem o ho)) hle
  rw [runAt_append, Op.run_snd h.lockstep hkey]
  show op.answer _ (liveAt t _) = _
  rw [hcell, hc, liveAt_some]

/-- A key that is read just before its deadline, and at it. -/
def readsToTheEnd : List (Op × Int) :=
  [(.ttl ['a'], 500), (.set ['b'] ['2'] none, 600), (.get ['a'], 999), (.get ['a'], 1000)]

theorem deadline_honoured_at_the_end :
    (Op.run (runAt (create 2 Nat.two_pos) ([(.set ['a'] ['1'] (some 1), 0)] ++
      readsToTheEnd.take 3)) (Clock.still 1000) (.get ['a'])).2 = .found none :=
  deadline_honoured 2 Nat.two_pos [['a'], ['b']] (Nat.le_refl 2) [(.set ['a'] ['1'] (some 1), 0)]
    readsToTheEnd (by unfold readsToTheEnd Names; simp [Op.key]) ['a'] ⟨.string ['1'], some 1000⟩
    (by decide) (by decide) (by decide) (readsToTheEnd.take 3) (.get ['a']) 1000 (by decide) rfl

end MiniStore
