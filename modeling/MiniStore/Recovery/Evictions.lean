import MiniStore.Recovery.Replay

/-!
# Replay across evictions

A GET moves its key to the front of the recency order and is not logged. The
replayed store therefore orders its keys by their last SET (`setOrder`), and it
evicts what the live store evicted only where both orders end in the same key
(`EvictsOldest`).
-/

namespace MiniStore

open InMemoryStore Engine

/-- SET without EX, and DEL. -/
def Command.setsOrDels : Command → Bool
  | .set _ _ none | .del _ => true
  | _ => false

namespace Recovery

/-- The keys the commands have set, the last one set first. -/
def setOrder (ms : List Moment) : List Str :=
  ms.foldl (fun keys m => m.setKey.elim keys fun key => key :: keys.erase key) []

/-- A SET about to insert at capacity finds at the end of the recency order, of the
stored keys, the one whose SET is the longest ago. -/
def EvictsOldest (past : List Moment) (m : Moment) : Prop :=
  ∀ key ∈ m.setKey, m.store.cell key = none → m.store.maxKeys ≤ m.store.size →
    m.store.lru.peekLRU = ((setOrder past).filter fun k => (m.store.cell k).isSome).getLast?

instance (past : List Moment) (m : Moment) : Decidable (EvictsOldest past m) :=
  inferInstanceAs (Decidable (∀ key ∈ m.setKey, _))

theorem setOrder_set {m : Moment} {key : Str} (h : m.setKey = some key) (ms : List Moment) :
    setOrder (ms ++ [m]) = key :: (setOrder ms).erase key := by
  simp [setOrder, h]

theorem setOrder_other {m : Moment} (h : m.setKey = none) (ms : List Moment) :
    setOrder (ms ++ [m]) = setOrder ms := by
  simp [setOrder, h]

theorem nodup_setOrder (ms : List Moment) : (setOrder ms).Nodup := by
  induction ms using List.reverseRecOn with
  | nil => exact List.nodup_nil
  | append_singleton ms m ih =>
    cases h : m.setKey with
    | none => rw [setOrder_other h]; exact ih
    | some key =>
      rw [setOrder_set h]
      exact List.nodup_cons.mpr ⟨ih.not_mem_erase, ih.erase key⟩

/-- The replayed store answers as the live one does and orders its keys by their
last SET. -/
structure Tracks (ms : List Moment) (live replayed : InMemoryStore) : Prop where
  permanent : ∀ k, Cell.Permanent (live.cell k)
  cell : replayed.view.cell = live.view.cell
  order : replayed.view.OrderedBy (setOrder ms)

theorem Tracks.same {ms : List Moment} {live live' replayed : InMemoryStore}
    (h : Tracks ms live replayed) (hc : live'.view.cell = live.view.cell) {m : Moment}
    (hi : m.setKey = none) : Tracks (ms ++ [m]) live' replayed := by
  refine ⟨fun k => ?_, h.cell.trans hc.symm, ?_⟩
  · rw [show live'.cell k = live.cell k from congrFun hc k]
    exact h.permanent k
  · rw [setOrder_other hi]
    exact h.order

section

variable {ms : List Moment} {live replayed : InMemoryStore} (h : Tracks ms live replayed)
  (hl : live.Lockstep) (hr : replayed.Lockstep) (hmax : replayed.maxKeys = live.maxKeys)

include h hl hr hmax

theorem Tracks.set {m : Moment} (hs : m.store = live) {key : Str} (hi : m.setKey = some key)
    (he : EvictsOldest ms m) {now now' : Clock} {f : Option Cell → Effect × Bool} {value : Str}
    (hf : ∀ c, (f c).1.action = .put ⟨.string value, none⟩) :
    Tracks (ms ++ [m]) (live.perform key now f).1 (replayed.perform key now' f).1 := by
  have hc : replayed.cell key = live.cell key := congrFun h.cell key
  have hlv := hl.view_perform_permanent now f (h.permanent key)
  have hrv := hr.view_perform_permanent now' f (hc ▸ h.permanent key)
  rw [hf] at hlv hrv
  rw [hmax] at hrv
  -- both stores evict the same key, if any
  have hv : live.view.victim live.maxKeys key = replayed.view.victim live.maxKeys key := by
    refine hl.view_wf.victim_congr (hmax ▸ hr.view_wf) h.cell.symm fun hn hfull => ?_
    have hfull' : live.maxKeys ≤ live.size := Nat.le_trans hfull (Nat.le_of_eq hl.length_order)
    have hlast := he key hi (by rw [hs]; exact hn) (by rw [hs]; exact hfull')
    rw [hs] at hlast
    have ho : replayed.view.order = (setOrder ms).filter fun k => (live.cell k).isSome := by
      have := h.order
      rwa [LruCache.OrderedBy, h.cell] at this
    rw [ho, ← hlast, live.lru.peekLRU_eq]
    rfl
  refine ⟨fun k => ?_, ?_, ?_⟩
  · by_cases hk : k = key
    · rw [hk, hl.cell_perform_self, hf]; exact Cell.permanent_some.mpr rfl
    · rcases hl.cell_perform_other hk with e | e <;> rw [e]
      · exact h.permanent k
      · exact Cell.permanent_none
  · rw [hlv, hrv]
    exact (LruCache.cell_commit_congr h.cell.symm fun _ => hv).symm
  · rw [hrv, setOrder_set hi]
    exact h.order.put (nodup_setOrder ms) _ _ _

theorem Tracks.del {m : Moment} (hi : m.setKey = none) {key : Str} {now now' : Clock}
    {f : Option Cell → Effect × Bool} (hf : (f (live.cell key)).1.action = .remove) :
    Tracks (ms ++ [m]) (live.perform key now f).1 (replayed.perform key now' f).1 := by
  have hc : replayed.cell key = live.cell key := congrFun h.cell key
  have hlv := hl.view_perform_permanent now f (h.permanent key)
  have hrv := hr.view_perform_permanent now' f (hc ▸ h.permanent key)
  rw [hf] at hlv
  rw [hc, hf, hmax] at hrv
  refine ⟨fun k => ?_, ?_, ?_⟩
  · have e : (live.perform key now f).1.cell k = if k = key then none else live.cell k :=
      (congrArg (LruCache.cell · k) hlv).trans (LruCache.cell_remove ..)
    rw [e]
    split
    · exact Cell.permanent_none
    · exact h.permanent k
  · rw [hlv, hrv]
    exact LruCache.cell_commit_congr h.cell fun ⟨_, e⟩ => (nomatch e)
  · rw [hrv, setOrder_other hi]
    exact h.order.remove (nodup_setOrder ms) key

end

/-- Along a run of SETs and DELs whose evictions all drop the key with the oldest
SET, the replay of the log tracks the store. -/
theorem tracks_steps {maxKeys : Nat} {hm : 1 ≤ maxKeys} {h0 : Engine} (h0f : Fresh maxKeys hm h0)
    (clocks : Nat → Nat → Clocks) {ms : List Moment} {h : Engine} (hs : Engine.Steps h0 ms h)
    (ha : Along (fun past m => m.runsOnly Command.setsOrDels = true ∧ EvictsOldest past m) ms) :
    Tracks ms h.store (replay (create maxKeys hm) h.lines clocks) := by
  refine steps_rule (P := fun ms s lines => Tracks ms s (replay (create maxKeys hm) lines clocks))
    h0f.sound ?_ ?_ ?_ hs ha
  · rw [h0f.lines, h0f.store]
    exact ⟨fun k => Cell.permanent_none, rfl, rfl⟩
  · intro ms h item clk key f hS ih ⟨hr, he⟩ hp hmu
    have hlr := lockstep_replay (lockstep_create maxKeys hm) hS.logged clocks
    have hmax : (replay (create maxKeys hm) h.lines clocks).maxKeys = h.store.maxKeys := by
      rw [maxKeys_replay (lockstep_create maxKeys hm) hS.logged, hS.maxKeys]; rfl
    have hc := Moment.command_of_runsOnly hr rfl hmu
    obtain ⟨f', hmu'⟩ := Command.mutation_key hmu (clocks h.lines.length 0 0)
    rw [liveAt_permanent (ih.permanent key),
      replay_logged (lockstep_create maxKeys hm) hS.logged clocks hp hmu']
    obtain ⟨line, c⟩ := item
    cases c with
    | set k v n =>
      cases n with
      | some n => cases hc
      | none =>
        cases hmu; cases hmu'
        rw [if_pos (by rfl)]
        exact ih.set hS.lockstep hlr hmax rfl rfl he fun _ => rfl
    | del k =>
      cases hmu; cases hmu'
      cases hk : h.store.cell key with
      | some c =>
        rw [if_pos (by simp [delCell])]
        exact ih.del hS.lockstep hlr hmax rfl (by rw [hk]; rfl)
      | none =>
        rw [if_neg (by simp [delCell])]
        have hv := hS.lockstep.view_perform_permanent (clk 0) delCell (ih.permanent key)
        rw [hk] at hv
        exact ih.same (congrArg LruCache.cell hv) rfl
    | _ => cases hc
  · intro ms h item clk s' _ ih _ hit hd
    exact ih.same (funext fun k => hd.cell_eq (ih.permanent k))
      (Moment.setKey_of_not_mutates (m := ⟨h.store, h.lines, item, clk⟩) hit)

/-- For every capacity and every run of lines of any connections whose mutating
commands are SETs without EX and DELs: if every SET that evicts a key evicts the
one whose SET is the longest ago, then replaying the logged lines on a new store
gives the live store's keys and values. -/
theorem replay_evictions (maxKeys : Nat) (hm : 1 ≤ maxKeys) (pm : Option PersistenceManager)
    (pubSub : Option PubSubManager) (requirepass : Option Str) (disabledCommands : List Str)
    (events : List Event) (clocks : Nat → Nat → Clocks) (h0 : Engine)
    (h0e : h0 = Engine.boot maxKeys hm pm pubSub requirepass disabledCommands)
    (hcmd : ∀ m ∈ h0.runMoments events, m.runsOnly Command.setsOrDels = true)
    (hev : Along EvictsOldest (h0.runMoments events)) (k : Str) :
    (replay (create maxKeys hm) (h0.run events).lines clocks).cell k =
      (h0.run events).store.cell k := by
  subst h0e
  have h := tracks_steps (fresh_boot maxKeys hm pm pubSub requirepass disabledCommands) clocks
    (Engine.steps_boot maxKeys hm pm pubSub requirepass disabledCommands events)
    fun past m rest e => ⟨hcmd m (by simp [e]), hev past m rest e⟩
  exact congrFun h.cell k

/-- A connection sends `SET a 1`, `SET b 1`, the given line and `SET c 1`. -/
def threeSets (between : String) : List Event :=
  timedLines [("SET a 1", 0), ("SET b 1", 0), (between, 0), ("SET c 1", 0)]

theorem replay_evictions_get_newest :
    (replay (create 2 (by decide))
      ((Engine.boot 2 (by decide) none none none []).run (threeSets "GET b")).lines
      fun _ _ => Clocks.still 0).cell ['a'] =
        ((Engine.boot 2 (by decide) none none none []).run (threeSets "GET b")).store.cell ['a'] :=
  replay_evictions 2 (by decide) none none none [] (threeSets "GET b") _ _ rfl (by decide)
    (by decide) ['a']

/-- A GET keeps the older key alive, and the replay evicts it. -/
theorem read_key_evicted :
    (∀ m ∈ (Engine.boot 2 (by decide) none none none []).runMoments (threeSets "GET a"),
      m.runsOnly Command.setsOrDels = true) ∧
    ((Engine.boot 2 (by decide) none none none []).run (threeSets "GET a")).lines =
      ["SET a 1".toList, "SET b 1".toList, "SET c 1".toList] ∧
    ((Engine.boot 2 (by decide) none none none []).run (threeSets "GET a")).store.cell ['a'] =
      some ⟨.string ['1'], none⟩ ∧
    (replay (create 2 (by decide))
      ((Engine.boot 2 (by decide) none none none []).run (threeSets "GET a")).lines
      fun _ _ => Clocks.still 0).cell ['a'] = none := by
  decide

end Recovery

end MiniStore
