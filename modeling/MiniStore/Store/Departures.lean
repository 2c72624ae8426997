import MiniStore.Lib.Trace
import MiniStore.Store.KeysMRU
import MiniStore.Store.SweepCoverage

/-!
# Why keys leave, and who is told

A call takes the store through stages: it removes at most one key at a time, in `#expireIfNeeded`,
in `#makeRoomForNewKey`, in the loop of the sweep, or at its end. `Turn` says once what can happen
from one stage to the next: nothing, one key more, or one key less for one of three reasons. From
it follows that every departure is reported once and for its reason, and that the departures and
the size account for all keys ever created (`departures_accounted`).
-/

namespace MiniStore

open Trace

/-- The operations that call `#reserveSlotFor` for a key they do not find. -/
def Op.reserves : Op → Bool
  | set .. | lpush .. | rpush .. | hset .. => true
  | _ => false

def Notification.key : Notification → Str
  | expired key => key
  | evicted key => key

namespace InMemoryStore

/-- The calls that may change what is stored; `keysMRU` stands for the generator run to its end. -/
inductive StoreCall where
  | op (op : Op)
  | keysMRU
  deriving DecidableEq

/-- The states of a fold after its start. -/
def passing {α : Type} (f : InMemoryStore → α → InMemoryStore) :
    InMemoryStore → List α → List InMemoryStore
  | _, [] => []
  | s, a :: as => f s a :: passing f (f s a) as

namespace StoreCall

/-- The store after a call, all of it executed at `t`. -/
def run (s : InMemoryStore) (t : Int) : StoreCall → InMemoryStore
  | op o => (o.run s (Clock.still t)).1
  | keysMRU => ((s.keysMRU (Clocks.still t)).map Prod.fst).getD s

def stages (s : InMemoryStore) (t : Int) : StoreCall → List InMemoryStore
  -- after each `#expireIfNeeded` of the loop
  | op (.keys _) => passing (fun s key => s.purge key t) s s.values.keys
  -- after the sampling, and after each round of the loop
  | op (.sweepExpired n) =>
    s.sample n t :: passing InMemoryStore.drop (s.sample n t) (s.expiry.collectExpired t n).2
  -- after `#expireIfNeeded`, after `#reserveSlotFor`, and at the end
  | op o =>
    match o.key with
    | none => []
    | some key =>
      let s' := s.purge key t
      [s', if o.reserves then s'.reserveSlotFor key t else s', run s t (op o)]
  | keysMRU => [run s t keysMRU]

/-- `del` of the key, a pop that leaves its list empty, or an `hdel` that leaves its hash empty. -/
def Removes (s : InMemoryStore) (k : Str) : StoreCall → Prop
  | op (.del key) => key = k
  | op (.lpop key) =>
    key = k ∧ ∃ list, s.values.get? k = some (.list list) ∧ (shift list).2 = []
  | op (.rpop key) =>
    key = k ∧ ∃ list, s.values.get? k = some (.list list) ∧ (pop list).2 = []
  | op (.hdel key fields) =>
    key = k ∧ ∃ map, s.values.get? k = some (.hash map) ∧ (deleteFields map fields).1.size = 0
  | _ => False

/-- The store is full, and the call stores a key that is not there. -/
def MakesRoom (s : InMemoryStore) (t : Int) (c : StoreCall) : Prop :=
  s.size = s.maxKeys ∧ ∃ key, s.values.has key = false ∧ (c.run s t).values.has key = true

end StoreCall

/-- A store on the way, with the call under way and its time. -/
structure Stage where
  call : StoreCall
  time : Int
  store : InMemoryStore

def trail : InMemoryStore → List (StoreCall × Int) → List Stage
  | _, [] => []
  | s, (c, t) :: calls => (c.stages s t).map (Stage.mk c t) ++ trail (c.run s t) calls

def lastStore (s : InMemoryStore) (stages : List Stage) : InMemoryStore :=
  stages.foldl (fun _ stage => stage.store) s

def runCalls (s : InMemoryStore) (calls : List (StoreCall × Int)) : InMemoryStore :=
  calls.foldl (fun s c => c.1.run s c.2) s

/-- Why a key leaves. -/
inductive Reason where
  | expired
  | evicted
  | removed
  deriving DecidableEq

/-- What has to hold, and has to be done, when a key leaves `s` for a reason at the next stage. -/
def Reason.Holds (s : InMemoryStore) (next : Stage) (k : Str) : Reason → Prop
  | expired => s.expiry.isExpired k next.time = true ∧
    next.store.notified = s.notified ++ [.expired k] ∧
    next.store.evictionCount = s.evictionCount
  | evicted => s.expiry.isExpired k next.time = false ∧ next.call.MakesRoom s next.time ∧
    next.store.notified = s.notified ++ [.evicted k] ∧
    next.store.evictionCount = s.evictionCount + 1
  | removed => s.expiry.isExpired k next.time = false ∧ next.call.Removes s k ∧
    next.store.notified = s.notified ∧
    next.store.evictionCount = s.evictionCount

/-- What is to hold of a stage: at most one key comes or goes, a key that goes does so for exactly
one reason, and a listener is called for keys only that go. -/
structure Accounted (s : InMemoryStore) (next : Stage) : Prop where
  single : ∃ k, ∀ j, j ≠ k → (j ∈ next.store.values.keys ↔ j ∈ s.values.keys)
  reason : ∀ k, k ∈ s.values.keys → k ∉ next.store.values.keys → ∃! r : Reason, r.Holds s next k
  reported : ∃ reports, next.store.notified = s.notified ++ reports ∧
    ∀ n ∈ reports, n.key ∈ s.values.keys ∧ n.key ∉ next.store.values.keys

def arrivals (s : InMemoryStore) (next : Stage) : Nat :=
  (next.store.values.keys.filter fun k => k ∉ s.values.keys).length

def leavings (s : InMemoryStore) (next : Stage) : Nat :=
  (s.values.keys.filter fun k => k ∉ next.store.values.keys).length

/-- The keys that go without a call of a listener. -/
def silences (s : InMemoryStore) (next : Stage) : Nat :=
  if next.store.notified = s.notified then leavings s next else 0

abbrev tally (f : InMemoryStore → Stage → Nat) : InMemoryStore → List Stage → Nat :=
  Trace.total (fun _ stage => stage.store) f

/-! ## From one stage to the next -/

/-- Everything that can happen. -/
inductive Turn (s : InMemoryStore) (next : Stage) : Prop where
  | still (keys : next.store.values.keys = s.values.keys)
      (notified : next.store.notified = s.notified)
      (evictions : next.store.evictionCount = s.evictionCount)
  | created (k : Str) (new : k ∉ s.values.keys)
      (keys : next.store.values.keys = s.values.keys ++ [k])
      (notified : next.store.notified = s.notified)
      (evictions : next.store.evictionCount = s.evictionCount)
  | left (k : Str) (r : Reason) (stored : k ∈ s.values.keys)
      (keys : next.store.values.keys = s.values.keys.erase k) (reason : r.Holds s next k)

section

variable {s : InMemoryStore} (h : s.Lockstep) {c : StoreCall} {t : Int} {key : Str}

theorem turn_drop (hk : key ∈ s.values.keys) (hx : s.expiry.isExpired key t = true) :
    Turn s ⟨c, t, s.drop key⟩ := by
  refine .left key .expired hk (keys_removeKey s key) ⟨hx, ?_, evictionCount_removeKey s key⟩
  show (s.removeKey key).notified ++ _ = _
  rw [notified_removeKey]

theorem turn_refl : Turn s ⟨c, t, s⟩ := .still rfl rfl rfl

theorem turn_purge : Turn s ⟨c, t, s.purge key t⟩ := by
  rcases expireIfNeeded_cases s key t with ⟨-, e, -⟩ | ⟨-, e, cell, hc, hx⟩
  · rw [e]
    exact turn_refl
  · have hk : key ∈ s.values.keys := mem_keys.mpr (by rw [hc]; exact Option.some_ne_none cell)
    rw [e]
    exact turn_drop hk ((isExpired_eq hc t).trans hx)

/-! ## An operation on a key -/

/-- What reserves a slot for a key it does not find stores it; the others do nothing then. -/
theorem effect_of_absent {o : Op} {now : Clock} {f : Option Cell → Effect}
    (he : o.effect now = some (key, f)) :
    if o.reserves then ∃ v d b, f none = .put v d b else f none = .keep := by
  cases o with
  | set => cases he; exact ⟨_, _, _, rfl⟩
  | lpush | rpush | hset => cases he; exact ⟨_, _, _, rfl⟩
  | keys | sweepExpired => cases he
  | _ => cases he; rfl

theorem popCell_remove {take : List Str → Option Str × List Str} {v : StoredValue} {d : Option Int}
    (hf : (popCell take (some ⟨v, d⟩)).1 = .remove) : ∃ list, v = .list list ∧ (take list).2 = [] := by
  cases v with
  | list l =>
    refine ⟨l, rfl, ?_⟩
    by_contra hne
    simp [popCell, hne] at hf
  | string | hash => cases hf

theorem hdelCell_remove {fields : List Str} {v : StoredValue} {d : Option Int}
    (hf : (hdelCell fields (some ⟨v, d⟩)).1 = .remove) :
    ∃ map, v = .hash map ∧ (deleteFields map fields).1.size = 0 := by
  cases v with
  | hash m =>
    refine ⟨m, rfl, ?_⟩
    by_contra hne
    simp only [hdelCell, if_neg hne] at hf
    split at hf <;> cases hf
  | string | list => cases hf

theorem removes_of_effect {o : Op} {now : Clock} {f : Option Cell → Effect} {x : Cell}
    (he : o.effect now = some (key, f)) (hx : s.cell key = some x) (hf : f (some x) = .remove) :
    (StoreCall.op o).Removes s key := by
  have hval := (get?_of_cell hx).1
  obtain ⟨v, d⟩ := x
  cases o with
  | del => cases he; exact rfl
  | lpop | rpop =>
    cases he
    obtain ⟨l, rfl, hl⟩ := popCell_remove hf
    exact ⟨rfl, l, hval, hl⟩
  | hdel =>
    cases he
    obtain ⟨m, rfl, hm⟩ := hdelCell_remove hf
    exact ⟨rfl, m, hval, hm⟩
  | get | lpush | rpush | hset => cases he; cases v <;> cases hf
  | ttl | persist => cases he; cases d <;> cases hf
  | set | expire | «exists» | keyType => cases he; cases hf
  | lrange | llen | hget | hgetall | hlen =>
    cases he
    rcases reads_readCell _ _ _ _ with e | e <;> cases e.symm.trans hf
  | keys | sweepExpired => cases he

variable {o : Op} {f : Option Cell → Effect}

include h

theorem has_run_of_reserves (he : o.effect (Clock.still t) = some (key, f)) (hr : o.reserves = true)
    (hc : s.cell key = none) : ((StoreCall.op o).run s t).values.has key = true := by
  have habsent := effect_of_absent he
  rw [hr] at habsent
  obtain ⟨v, d, b, hf⟩ := habsent
  have hp : s.purge key t = s := purge_of_live (by rw [hc]; rfl)
  show (o.run s (Clock.still t)).1.values.has key = true
  rw [Op.run_effect h he]
  show ((s.purge key t).commit key t (f ((s.purge key t).cell key))).values.has key = true
  rw [hp, hc, hf, values_commit_put, OrdMap.has_set]
  simp

theorem turn_reserve (he : o.effect (Clock.still t) = some (key, f)) (hr : o.reserves = true) :
    Turn s ⟨.op o, t, s.reserveSlotFor key t⟩ := by
  rcases h.reserveSlotFor_cases key t with ⟨-, e⟩ | ⟨v, hv, hs, e⟩
  · rw [e]
    exact turn_refl
  · have hstored : v ∈ s.values.keys := OrdMap.mem_keys_iff_has.mpr hs
    rw [e]
    cases hx : s.expiry.isExpired v t with
    | true => exact turn_drop hstored hx
    | false =>
      obtain ⟨-, hnew, hfull⟩ := LruCache.victim_mem hv
      have hnone : s.cell key = none := by
        rw [show s.view.order = s.lru.order from rfl, h.tracked, has_iff_cell, not_not] at hnew
        exact hnew
      have hsize : s.size = s.maxKeys :=
        Nat.le_antisymm h.size_le (hfull.trans (Nat.le_of_eq h.length_order))
      refine .left v .evicted hstored (keys_removeKey s v) ⟨hx, ⟨hsize, key, ?_, ?_⟩, ?_, rfl⟩
      · exact OrdMap.has_eq_false_iff.mpr (cell_eq_none.mp hnone)
      · exact has_run_of_reserves h he hr hnone
      · show (s.removeKey v).notified ++ _ = _
        rw [notified_removeKey]

theorem turn_of_absent (he : o.effect (Clock.still t) = some (key, f)) (hc : s.cell key = none) :
    Turn (if o.reserves then s.reserveSlotFor key t else s) ⟨.op o, t, s.commit key t (f none)⟩ := by
  have habsent := effect_of_absent he
  cases hr : o.reserves with
  | false =>
    rw [hr] at habsent
    rw [show f none = .keep from habsent]
    exact turn_refl
  | true =>
    rw [hr] at habsent
    obtain ⟨v, d, b, hf⟩ := habsent
    have hnew := h.cell_reserveSlotFor_self hc t
    have hnot : (s.reserveSlotFor key t).values.has key = false :=
      OrdMap.has_eq_false_iff.mpr (cell_eq_none.mp hnew)
    rw [hf, if_pos rfl]
    refine .created key ?_ ?_ (notified_commit_put ..) (evictionCount_commit_put ..)
    · rw [mem_keys, hnew]
      exact fun hne => hne rfl
    · rw [values_commit_put]
      exact OrdMap.keys_set_of_new hnot

omit h in
theorem turn_of_present (he : o.effect (Clock.still t) = some (key, f)) {x : Cell}
    (hc : s.cell key = some x) (hlive : x.expired t = false) :
    Turn s ⟨.op o, t, s.commit key t (f (some x))⟩ := by
  have hk : s.values.has key = true := has_iff_cell.mpr (by rw [hc]; exact Option.some_ne_none x)
  have hr : s.reserveSlotFor key t = s := reserveSlotFor_of_has hk t
  cases hf : f (some x) with
  | keep => exact turn_refl
  | touch => exact .still rfl rfl rfl
  | put v d b =>
    refine .still ?_ ?_ ?_
    · rw [values_commit_put, hr]
      exact OrdMap.keys_set_of_has hk
    · rw [notified_commit_put, hr]
    · rw [evictionCount_commit_put, hr]
  | remove =>
    have hdue : s.expiry.isExpired key t = false := (isExpired_eq hc t).trans hlive
    exact .left key .removed (OrdMap.mem_keys_iff_has.mpr hk) (keys_removeKey s key)
      ⟨hdue, removes_of_effect he hc hf, notified_removeKey s key, evictionCount_removeKey s key⟩

theorem turn_finish (he : o.effect (Clock.still t) = some (key, f))
    (hlive : ∀ x, s.cell key = some x → x.expired t = false) :
    Turn (if o.reserves then s.reserveSlotFor key t else s)
      ⟨.op o, t, s.commit key t (f (s.cell key))⟩ := by
  cases hc : s.cell key with
  | none => exact turn_of_absent h he hc
  | some x =>
    have hk : s.values.has key = true := has_iff_cell.mpr (by rw [hc]; exact Option.some_ne_none x)
    rw [reserveSlotFor_of_has hk t, ite_self]
    exact turn_of_present he hc (hlive x hc)

end

/-! ## The stages of a call -/

abbrev Throughout (P : InMemoryStore → Stage → Prop) : InMemoryStore → List Stage → Prop :=
  Trace.Along (fun _ stage => stage.store) P

section

variable {c : StoreCall} {t : Int}

theorem lastStore_passing {α : Type} (f : InMemoryStore → α → InMemoryStore) (as : List α) :
    ∀ s, lastStore s ((passing f s as).map (Stage.mk c t)) = as.foldl f s := by
  induction as with
  | nil => exact fun _ => rfl
  | cons a as ih => exact fun s => ih (f s a)

theorem along_purges (ks : List Str) : ∀ s,
    Throughout Turn s ((passing (fun s key => s.purge key t) s ks).map (Stage.mk c t)) := by
  induction ks with
  | nil => exact fun _ => trivial
  | cons key ks ih => exact fun s => ⟨turn_purge, ih (s.purge key t)⟩

theorem Lockstep.isExpired_drop {s : InMemoryStore} (h : s.Lockstep) {key k : Str} (hne : k ≠ key)
    (now : Int) : (s.drop key).expiry.isExpired k now = s.expiry.isExpired k now := by
  have hd : (s.drop key).expiry.deadline k = s.expiry.deadline k := by
    show (s.removeKey key).expiry.deadline k = _
    rw [h.expiry_removeKey, ExpiryManager.deadline_clear, if_neg hne]
  rw [Bool.eq_iff_iff, ExpiryManager.isExpired_eq, ExpiryManager.isExpired_eq, hd]

theorem isExpired_sample (s : InMemoryStore) (n : Int) (k : Str) (now : Int) :
    (s.sample n t).expiry.isExpired k now = s.expiry.isExpired k now := by
  have hd : (s.sample n t).expiry.deadline k = s.expiry.deadline k :=
    ExpiryManager.deadline_collectExpired ..
  rw [Bool.eq_iff_iff, ExpiryManager.isExpired_eq, ExpiryManager.isExpired_eq, hd]

/-- The loop of the sweep, over distinct keys that are due. -/
theorem along_drops (ks : List Str) : ∀ {s : InMemoryStore}, s.Lockstep → ks.Nodup →
    (∀ k ∈ ks, s.expiry.isExpired k t = true) →
      Throughout Turn s ((passing InMemoryStore.drop s ks).map (Stage.mk c t)) := by
  induction ks with
  | nil => exact fun _ _ _ => trivial
  | cons key ks ih =>
    intro s h hn hx
    obtain ⟨hnew, hn⟩ := List.nodup_cons.mp hn
    have hkey := hx key List.mem_cons_self
    refine ⟨turn_drop (mem_keys.mpr (h.stored_of_expired hkey)) hkey, ih (h.drop key) hn ?_⟩
    intro k hk
    have hne : k ≠ key := fun e => hnew (e ▸ hk)
    rw [h.isExpired_drop hne]
    exact hx k (List.mem_cons_of_mem _ hk)

/-- Of all keys the loop of `keys` drops those that are due. -/
theorem keysLoop_still (test : Str → Bool) : ∀ (ks : List Str) (i : Nat) (s : InMemoryStore),
    (keysLoop test (Clock.still t) ks i s).1 = ks.foldl (fun s key => s.purge key t) s
  | [], _, _ => rfl
  | key :: ks, i, s => keysLoop_still test ks (i + 1) (s.purge key t)

end

section

variable {s : InMemoryStore} (h : s.Lockstep) (t : Int)

include h

omit h in
theorem stages_of_key {o : Op} {key : Str} (hk : o.key = some key) :
    (StoreCall.op o).stages s t = [s.purge key t,
      if o.reserves then (s.purge key t).reserveSlotFor key t else s.purge key t,
      (StoreCall.op o).run s t] := by
  cases o <;> cases hk <;> rfl

theorem Lockstep.run_keysMRU :
    StoreCall.keysMRU.run s t = s ∨ ∃ key ∈ s.values.keys, s.expiry.isExpired key t = true ∧
      StoreCall.keysMRU.run s t = s.drop key := by
  have hrun : StoreCall.keysMRU.run s t = s.afterMRU t s.lru.order := by
    rw [StoreCall.run, keysMRU_still h]
    rfl
  rw [hrun, afterMRU]
  cases hf : s.lru.order.find? fun k => !s.live t k with
  | none => exact .inl rfl
  | some k =>
    have hdue := List.find?_some hf
    have hcell := (h.view_wf.mem k).mp (List.mem_of_find?_eq_some hf)
    obtain ⟨x, hx⟩ := Option.ne_none_iff_exists'.mp hcell
    have hexp : x.expired t = true := by
      rw [Bool.not_eq_true', ← Bool.not_eq_true, live_iff] at hdue
      by_contra hn
      exact hdue ⟨x, hx, Bool.eq_false_iff.mpr hn⟩
    exact .inr ⟨k, mem_keys.mpr hcell, (isExpired_eq hx t).trans hexp, rfl⟩

theorem Lockstep.runCall (c : StoreCall) : (c.run s t).Lockstep := by
  cases c with
  | op o => exact h.run o (Clock.still t)
  | keysMRU =>
    rcases h.run_keysMRU t with e | ⟨key, -, -, e⟩
    · rwa [e]
    · rw [e]
      exact h.drop key

theorem Lockstep.along_stages (c : StoreCall) :
    Throughout Turn s ((c.stages s t).map (Stage.mk c t)) := by
  cases c with
  | keysMRU =>
    refine ⟨?_, trivial⟩
    rcases h.run_keysMRU t with e | ⟨key, hk, hx, e⟩
    · rw [e]
      exact turn_refl
    · rw [e]
      exact turn_drop hk hx
  | op o =>
    cases hk : o.key with
    | none =>
      cases o with
      | keys pattern => exact along_purges _ s
      | sweepExpired n =>
        refine ⟨.still rfl rfl rfl, along_drops _ (h.sample n t) ?_ fun k hk => ?_⟩
        · exact s.expiry.wf.nodup_collectExpired t n
        · rw [isExpired_sample]
          exact ExpiryManager.collectExpired_expired _ _ _ k hk
      | _ => cases hk
    | some key =>
      obtain ⟨f, he⟩ := Op.effect_of_key hk (Clock.still t)
      have hp := h.purge key t
      have hrun : (StoreCall.op o).run s t =
          (s.purge key t).commit key t (f ((s.purge key t).cell key)) := Op.run_effect h he
      have hlive : ∀ x, (s.purge key t).cell key = some x → x.expired t = false := fun x hx =>
        (liveAt_eq_some.mp ((h.cell_purge_self key t).symm.trans hx)).2
      rw [stages_of_key t hk, hrun]
      refine ⟨turn_purge, ?_, turn_finish hp he hlive, trivial⟩
      show Turn (s.purge key t) ⟨.op o, t, ite _ _ _⟩
      cases hr : o.reserves with
      | false => exact turn_refl
      | true => exact turn_reserve hp he hr

omit h in
theorem lastStore_stages (c : StoreCall) :
    lastStore s ((c.stages s t).map (Stage.mk c t)) = c.run s t := by
  cases c with
  | keysMRU => rfl
  | op o =>
    cases hk : o.key with
    | some key => rw [stages_of_key t hk]; rfl
    | none =>
      cases o with
      | keys pattern =>
        exact (lastStore_passing _ _ s).trans (keysLoop_still _ _ 0 s).symm
      | sweepExpired n => exact lastStore_passing InMemoryStore.drop _ (s.sample n t)
      | _ => cases hk

end

/-! ## The stages of a run -/

theorem lastStore_trail (calls : List (StoreCall × Int)) :
    ∀ s, lastStore s (trail s calls) = runCalls s calls := by
  induction calls with
  | nil => exact fun _ => rfl
  | cons c calls ih =>
    intro s
    show lastStore s (_ ++ trail (c.1.run s c.2) calls) = _
    rw [lastStore, List.foldl_append]
    show lastStore (lastStore s _) _ = _
    rw [lastStore_stages]
    exact ih (c.1.run s c.2)

theorem Lockstep.along_trail (calls : List (StoreCall × Int)) : ∀ {s : InMemoryStore}, s.Lockstep →
    Throughout Turn s (trail s calls) := by
  induction calls with
  | nil => exact fun _ => trivial
  | cons c calls ih =>
    intro s h
    refine along_append.mpr ⟨h.along_stages c.2 c.1, ?_⟩
    show Throughout Turn (lastStore s _) _
    rw [lastStore_stages]
    exact ih (h.runCall c.2 c.1)

/-! ## What a turn amounts to -/

section

variable {s : InMemoryStore} {next : Stage}

theorem Reason.Holds.unique {k : Str} {r r' : Reason} (h : r.Holds s next k)
    (h' : r'.Holds s next k) : r' = r := by
  have hclash : ∀ {p q : Prop}, (s.expiry.isExpired k next.time = true ∧ p) →
      (s.expiry.isExpired k next.time = false ∧ q) → False := fun hd hl =>
    Bool.false_ne_true (hl.1.symm.trans hd.1)
  cases r with
  | expired =>
    cases r' with
    | expired => rfl
    | evicted | removed => exact (hclash h h').elim
  | evicted =>
    cases r' with
    | expired => exact (hclash h' h).elim
    | evicted => rfl
    | removed => exact absurd (h.2.2.2.symm.trans h'.2.2.2) (Nat.succ_ne_self _)
  | removed =>
    cases r' with
    | expired => exact (hclash h' h).elim
    | evicted => exact absurd (h'.2.2.2.symm.trans h.2.2.2) (Nat.succ_ne_self _)
    | removed => rfl

theorem Turn.accounted (h : Turn s next) : Accounted s next := by
  have silent : next.store.notified = s.notified → ∃ reports,
      next.store.notified = s.notified ++ reports ∧
        ∀ n ∈ reports, n.key ∈ s.values.keys ∧ n.key ∉ next.store.values.keys := fun e =>
    ⟨[], by rw [e, List.append_nil], fun n hn => absurd hn List.not_mem_nil⟩
  cases h with
  | still keys notified _ =>
    refine ⟨⟨[], fun j _ => by rw [keys]⟩, fun k hk hn => ?_, silent notified⟩
    rw [keys] at hn
    exact absurd hk hn
  | created k _ keys notified _ =>
    refine ⟨⟨k, fun j hj => by rw [keys]; simp [hj]⟩, fun j hj hn => ?_, silent notified⟩
    rw [keys] at hn
    exact absurd (List.mem_append_left _ hj) hn
  | left k r stored keys reason =>
    have gone : k ∉ next.store.values.keys := by
      rw [keys]
      exact s.values.keys_nodup.not_mem_erase
    refine ⟨⟨k, fun j hj => by rw [keys, List.mem_erase_of_ne hj]⟩, fun j hj hn => ?_, ?_⟩
    · have hjk : j = k := by
        by_contra hne
        rw [keys, List.mem_erase_of_ne hne] at hn
        exact hn hj
      rw [hjk]
      exact ⟨r, reason, fun r' h' => reason.unique h'⟩
    · cases r with
      | expired =>
        refine ⟨[.expired k], reason.2.1, fun n hn => ?_⟩
        rw [List.mem_singleton.mp hn]
        exact ⟨stored, gone⟩
      | evicted =>
        refine ⟨[.evicted k], reason.2.2.1, fun n hn => ?_⟩
        rw [List.mem_singleton.mp hn]
        exact ⟨stored, gone⟩
      | removed => exact silent reason.2.2.1

theorem arrivals_eq_zero (hsub : next.store.values.keys ⊆ s.values.keys) : arrivals s next = 0 := by
  rw [arrivals, List.length_eq_zero_iff, List.filter_eq_nil_iff]
  exact fun k hk => by simpa using hsub hk

theorem leavings_eq_zero (hsub : s.values.keys ⊆ next.store.values.keys) : leavings s next = 0 := by
  rw [leavings, List.length_eq_zero_iff, List.filter_eq_nil_iff]
  exact fun k hk => by simpa using hsub hk

theorem arrivals_eq_one {k : Str} (hk : k ∉ s.values.keys)
    (hkeys : next.store.values.keys = s.values.keys ++ [k]) : arrivals s next = 1 := by
  have hold : (s.values.keys.filter fun j => j ∉ s.values.keys) = [] :=
    List.filter_eq_nil_iff.mpr fun j hj => by simpa using hj
  rw [arrivals, hkeys, List.filter_append, hold, List.nil_append]
  exact congrArg List.length (List.filter_cons_of_pos (by simpa using hk))

theorem leavings_eq_one {k : Str} (hk : k ∈ s.values.keys)
    (hkeys : next.store.values.keys = s.values.keys.erase k) : leavings s next = 1 := by
  have hself : (s.values.keys.filter fun j => j ∉ next.store.values.keys) =
      s.values.keys.filter (· == k) := by
    refine List.filter_congr fun j hj => ?_
    by_cases e : j = k <;> simp [hkeys, s.values.keys_nodup.mem_erase_iff, e, hj]
  rw [leavings, hself, List.filter_beq, List.count_eq_one_of_mem s.values.keys_nodup hk]
  rfl

theorem silences_of_report {n : Notification} (hn : next.store.notified = s.notified ++ [n]) :
    silences s next = 0 := by
  have hne : next.store.notified ≠ s.notified := by rw [hn]; simp
  exact if_neg hne

theorem Reason.Holds.reports {k : Str} {r : Reason} (h : r.Holds s next k)
    (hleft : leavings s next = 1) :
    s.notified.length + 1 = next.store.notified.length + silences s next := by
  cases r with
  | expired => rw [silences_of_report h.2.1, h.2.1, List.length_append]; rfl
  | evicted => rw [silences_of_report h.2.2.1, h.2.2.1, List.length_append]; rfl
  | removed => rw [silences, if_pos h.2.2.1, hleft, h.2.2.1]

/-- The sizes and the numbers of reports balance what comes and what goes. -/
theorem Turn.balanced (h : Turn s next) :
    s.size + arrivals s next = next.store.size + leavings s next ∧
      s.notified.length + leavings s next = next.store.notified.length + silences s next := by
  have hsize : ∀ x : InMemoryStore, x.size = x.values.keys.length := fun x =>
    x.values.length_keys.symm
  rw [hsize, hsize]
  cases h with
  | still keys notified _ =>
    have hcome : arrivals s next = 0 := arrivals_eq_zero (keys ▸ List.Subset.refl _)
    have hgo : leavings s next = 0 := leavings_eq_zero (keys ▸ List.Subset.refl _)
    rw [silences, if_pos notified, hgo, hcome, keys, notified]
    exact ⟨rfl, rfl⟩
  | created k new keys notified _ =>
    have hgo : leavings s next = 0 := leavings_eq_zero (keys ▸ List.subset_append_left _ _)
    rw [silences, if_pos notified, hgo, arrivals_eq_one new keys, keys, notified, List.length_append]
    exact ⟨rfl, rfl⟩
  | left k r stored keys reason =>
    have hgo := leavings_eq_one stored keys
    have hcome : arrivals s next = 0 := arrivals_eq_zero (keys ▸ List.erase_subset)
    have hpos := List.length_pos_of_mem stored
    rw [hgo, hcome, keys, List.length_erase_of_mem stored]
    exact ⟨by omega, reason.reports hgo⟩

end

/-- For every capacity and every sequence of calls at any times, with the stages they go through:
the last stage is the end of the run; whenever a key goes, it does so for exactly one reason, which
says what was reported, and nothing else is ever reported; and the keys that came so far are those
that went and those that are there. Those that went are the calls of the listeners and the keys
that were removed without one. -/
theorem departures_accounted (maxKeys : Nat) (hm : 1 ≤ maxKeys) (calls : List (StoreCall × Int))
    (s : InMemoryStore) (hs : s = create maxKeys hm) :
    lastStore s (trail s calls) = runCalls s calls ∧
    (∀ past next, past ++ [next] <+: trail s calls → Accounted (lastStore s past) next) ∧
    ∀ past, past <+: trail s calls →
      tally arrivals s past = tally leavings s past + (lastStore s past).size ∧
      tally leavings s past = (lastStore s past).notified.length + tally silences s past := by
  have hall : Throughout Turn s (trail s calls) := hs ▸ (lockstep_create maxKeys hm).along_trail calls
  refine ⟨lastStore_trail calls s, fun past next hp => (hall.step hp).accounted, fun past hp => ?_⟩
  obtain ⟨rest, hrest⟩ := hp
  rw [← hrest] at hall
  have hpast := (along_append.mp hall).1
  have hempty : s.size = 0 ∧ s.notified.length = 0 := by rw [hs]; exact ⟨rfl, rfl⟩
  have hsizes := Trace.Along.balance (P := Turn) (fun h => h.balanced.1) hpast
  have hcalls := Trace.Along.balance (P := Turn) (fun h => h.balanced.2) hpast
  rw [hempty.1, Nat.zero_add, Nat.add_comm] at hsizes
  rw [hempty.2, Nat.zero_add] at hcalls
  exact ⟨hsizes, hcalls⟩

/-- In a store for one key `a` expires and `b` is live when it makes room; `c` is deleted. -/
def threeKeys : List (StoreCall × Int) :=
  [(.op (.set ['a'] ['x'] (some 1)), 0), (.op (.set ['b'] ['x'] none), 2000),
    (.op (.rpush ['c'] [['x']]), 2001), (.op (.del ['c']), 2002)]

theorem departures_accounted_threeKeys :
    (lastStore (create 1 Nat.one_pos) (trail (create 1 Nat.one_pos) threeKeys)).notified =
      [.expired ['a'], .evicted ['b']] ∧
    tally leavings (create 1 Nat.one_pos) (trail (create 1 Nat.one_pos) threeKeys) = 3 := by
  have hends : (lastStore (create 1 Nat.one_pos)
      (trail (create 1 Nat.one_pos) threeKeys)).notified = [.expired ['a'], .evicted ['b']] := by
    decide
  have hall := departures_accounted 1 Nat.one_pos threeKeys _ rfl
  have hcalls := (hall.2.2 _ (List.prefix_refl _)).2
  rw [hends] at hcalls
  exact ⟨hends, hcalls.trans (by decide)⟩

end InMemoryStore

end MiniStore
