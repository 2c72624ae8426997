import MiniStore.Lib.LruCache
import MiniStore.Store.InMemoryStore

/-!
# The store as a bounded key space

What the store is for: a key holds a cell, that is a value and perhaps a
deadline, and the keys are ordered by their last use (`InMemoryStore.view`, an
`LruCache`). `Lockstep` is the class comment's invariant: `#values` and `#lru`
hold the same keys, `#expiry` some of them.

An operation on a key first removes it if it is due (`purge`) and then does one
of four things to it (`Effect`, `commit`), an action on the view (`view_commit`).
-/

namespace MiniStore

/-- What a key holds. -/
structure Cell where
  value : StoredValue
  deadline : Option Int
  deriving DecidableEq

def Cell.expired (c : Cell) (now : Int) : Bool :=
  match c.deadline with
  | none => false
  | some d => d ≤ now

/-- What is left of a cell at a point in time. -/
def liveAt (now : Int) (c : Option Cell) : Option Cell := c.filter fun c => !c.expired now

@[simp] theorem liveAt_none (now : Int) : liveAt now none = none := rfl

theorem liveAt_some (now : Int) (c : Cell) :
    liveAt now (some c) = if c.expired now then none else some c := by
  unfold liveAt; cases h : c.expired now <;> simp [Option.filter, h]

/-- A cell without a deadline. -/
def Cell.Permanent (c : Option Cell) : Prop := ∀ c' ∈ c, c'.deadline = none

theorem Cell.permanent_none : Cell.Permanent none := fun _ h => nomatch h

theorem Cell.permanent_some {v : StoredValue} {d : Option Int} :
    Cell.Permanent (some ⟨v, d⟩) ↔ d = none :=
  ⟨fun h => h _ rfl, fun h c hc => by cases hc; exact h⟩

theorem liveAt_permanent {c : Option Cell} (h : Cell.Permanent c) (now : Int) :
    liveAt now c = c := by
  cases c with
  | none => rfl
  | some c =>
    have hd := h c rfl
    have : c.expired now = false := by unfold Cell.expired; rw [hd]
    rw [liveAt_some, this]; rfl

theorem liveAt_eq_some {now : Int} {o : Option Cell} {c : Cell} :
    liveAt now o = some c ↔ o = some c ∧ c.expired now = false := by
  cases o with
  | none => simp
  | some c' =>
    rw [liveAt_some]
    cases h : c'.expired now with
    | true => simp only [if_true, reduceCtorEq, false_iff, not_and, Option.some.injEq]
              rintro rfl; simp [h]
    | false => simp only [Bool.false_eq_true, if_false, Option.some.injEq]
               exact ⟨fun e => ⟨e, e ▸ h⟩, fun e => e.1⟩

theorem liveAt_eq_ite (now : Int) (o : Option Cell) :
    liveAt now o = if (liveAt now o).isNone then none else o := by
  cases h : liveAt now o with
  | none => rfl
  | some c => exact (liveAt_eq_some.mp h).1.symm

theorem expired_mono {c : Cell} {t t' : Int} (ht : t ≤ t') (h : c.expired t = true) :
    c.expired t' = true := by
  unfold Cell.expired at *
  cases hd : c.deadline with
  | none => simp [hd] at h
  | some d => simp only [hd, decide_eq_true_eq] at *; omega

theorem liveAt_liveAt {t t' : Int} (ht : t ≤ t') (o : Option Cell) :
    liveAt t' (liveAt t o) = liveAt t' o := by
  cases o with
  | none => rfl
  | some c =>
    rw [liveAt_some t c]
    cases h : c.expired t with
    | true => simp [liveAt_some, expired_mono ht h]
    | false => rfl

namespace ExpiryManager

def assign (t : ExpiryManager) (key : Str) : Option Int → ExpiryManager
  | none => t.clear key
  | some d => t.set key d

theorem deadline_assign (t : ExpiryManager) (key k : Str) (d : Option Int) :
    (t.assign key d).deadline k = if k = key then d else t.deadline k := by
  cases d with
  | none => exact deadline_clear t key k
  | some d => exact deadline_set t key k d

theorem assign_of_deadline {t : ExpiryManager} {key : Str} {d : Option Int}
    (h : t.deadline key = d) : t.assign key d = t := by
  cases d with
  | none => exact clear_of_deadline h
  | some d => exact set_of_deadline h

end ExpiryManager

namespace InMemoryStore

def cell (s : InMemoryStore) (k : Str) : Option Cell :=
  (s.values.get? k).map fun v => ⟨v, s.expiry.deadline k⟩

/-- The store as a bounded map ordered by use. -/
def view (s : InMemoryStore) : LruCache Str Cell := ⟨s.cell, s.lru.order⟩

/-- `#values` and `#lru` hold the same keys, at most `maxKeys` of them, and only
these carry deadlines. -/
structure Lockstep (s : InMemoryStore) : Prop where
  tracked : ∀ k, k ∈ s.lru.order ↔ s.values.has k = true
  deadlines : ∀ k d, s.expiry.deadline k = some d → s.values.has k = true
  size_le : s.values.size ≤ s.maxKeys

/-! ## Cells -/

theorem cell_eq_none {s : InMemoryStore} {k : Str} : s.cell k = none ↔ s.values.get? k = none := by
  unfold cell; cases s.values.get? k <;> simp

theorem has_iff_cell {s : InMemoryStore} {k : Str} : s.values.has k = true ↔ s.cell k ≠ none := by
  rw [ne_eq, cell_eq_none, ← OrdMap.has_eq_false_iff]; simp

theorem get?_of_cell {s : InMemoryStore} {k : Str} {c : Cell} (h : s.cell k = some c) :
    s.values.get? k = some c.value ∧ s.expiry.deadline k = c.deadline := by
  unfold cell at h
  cases hv : s.values.get? k with
  | none => simp [hv] at h
  | some v => rw [hv] at h; cases h; exact ⟨rfl, rfl⟩

theorem mem_keys {s : InMemoryStore} {k : Str} : k ∈ s.values.keys ↔ s.cell k ≠ none := by
  rw [OrdMap.mem_keys_iff_has, has_iff_cell]

theorem size_pos_of_cell {s : InMemoryStore} {k : Str} (h : s.cell k ≠ none) : 0 < s.size := by
  have hpos := List.length_pos_of_mem (mem_keys.mpr h)
  rwa [OrdMap.length_keys] at hpos

/-- What holds of every cell is checked key by key. -/
theorem forall_cell {s : InMemoryStore} {P : Str → Cell → Prop}
    (h : ∀ k ∈ s.values.keys, ∀ c ∈ s.cell k, P k c) (k : Str) (c : Cell) (hc : s.cell k = some c) :
    P k c :=
  h k (OrdMap.mem_keys_iff_has.mpr (has_iff_cell.mpr (by simp [hc]))) c hc

theorem isExpired_eq {s : InMemoryStore} {k : Str} {c : Cell} (h : s.cell k = some c) (now : Int) :
    s.expiry.isExpired k now = c.expired now := by
  have hd := (get?_of_cell h).2
  rw [Bool.eq_iff_iff, ExpiryManager.isExpired_eq, hd]
  unfold Cell.expired
  cases c.deadline <;> simp

theorem Lockstep.perm {s : InMemoryStore} (h : s.Lockstep) : s.lru.order.Perm s.values.keys :=
  (List.perm_ext_iff_of_nodup s.lru.nodup_order s.values.keys_nodup).mpr fun k => by
    rw [h.tracked, OrdMap.mem_keys_iff_has]

theorem Lockstep.length_order {s : InMemoryStore} (h : s.Lockstep) :
    s.lru.order.length = s.values.size := by
  rw [h.perm.length_eq, OrdMap.length_keys]

theorem Lockstep.view_wf {s : InMemoryStore} (h : s.Lockstep) : s.view.WF s.maxKeys where
  nodup := s.lru.nodup_order
  mem := fun k => (h.tracked k).trans has_iff_cell
  le := h.length_order ▸ h.size_le

theorem Lockstep.size_eq {s s' : InMemoryStore} (h : s.Lockstep) (h' : s'.Lockstep)
    (hc : ∀ k, s.cell k = none ↔ s'.cell k = none) : s.size = s'.size :=
  h.length_order.symm.trans ((h.view_wf.length_eq h'.view_wf hc).trans h'.length_order)

theorem Lockstep.size_le_of_subset {s : InMemoryStore} (h : s.Lockstep) {l : List Str}
    (hl : ∀ k, s.cell k ≠ none → k ∈ l) : s.size ≤ l.length :=
  Nat.le_trans (Nat.le_of_eq h.length_order.symm) (h.view_wf.length_le_of_subset hl)

theorem Lockstep.deadline_none {s : InMemoryStore} (h : s.Lockstep) {k : Str}
    (hk : s.values.get? k = none) : s.expiry.deadline k = none := by
  cases hd : s.expiry.deadline k with
  | none => rfl
  | some d =>
    have := h.deadlines k d hd
    rw [OrdMap.has_eq_false_iff.mpr hk] at this
    cases this

/-- A store whose view is well formed and whose deadlines belong to keys. -/
theorem lockstep_of_view {s : InMemoryStore} (hw : s.view.WF s.maxKeys)
    (hd : ∀ k d, s.expiry.deadline k = some d → s.cell k ≠ none) : s.Lockstep := by
  have ht : ∀ k, k ∈ s.lru.order ↔ s.values.has k = true := fun k =>
    (hw.mem k).trans has_iff_cell.symm
  refine ⟨ht, fun k d h => has_iff_cell.mpr (hd k d h), ?_⟩
  have hp : s.lru.order.Perm s.values.keys :=
    (List.perm_ext_iff_of_nodup s.lru.nodup_order s.values.keys_nodup).mpr fun k => by
      rw [ht, OrdMap.mem_keys_iff_has]
  rw [← OrdMap.length_keys, ← hp.length_eq]
  exact hw.le

theorem lockstep_create (n : Nat) (h : 1 ≤ n) : (create n h).Lockstep :=
  ⟨fun k => by simp [create], fun k d hd => by simp [create] at hd, Nat.zero_le _⟩

@[simp] theorem cell_create (n : Nat) (h : 1 ≤ n) (k : Str) : (create n h).cell k = none := rfl

@[simp] theorem maxKeys_create (n : Nat) (h : 1 ≤ n) : (create n h).maxKeys = n := rfl

/-! ## Removing a key -/

@[simp] theorem maxKeys_removeKey (s : InMemoryStore) (k : Str) :
    (s.removeKey k).maxKeys = s.maxKeys := by unfold removeKey; split <;> rfl

theorem notified_removeKey (s : InMemoryStore) (k : Str) :
    (s.removeKey k).notified = s.notified := by unfold removeKey; split <;> rfl

theorem evictionCount_removeKey (s : InMemoryStore) (k : Str) :
    (s.removeKey k).evictionCount = s.evictionCount := by unfold removeKey; split <;> rfl

theorem values_removeKey (s : InMemoryStore) (k : Str) :
    (s.removeKey k).values = s.values.delete k := by
  unfold removeKey
  split
  · rfl
  · next h => exact (OrdMap.delete_of_not_has (by simpa using h)).symm

theorem keys_removeKey (s : InMemoryStore) (k : Str) :
    (s.removeKey k).values.keys = s.values.keys.erase k := by
  rw [values_removeKey, OrdMap.keys_delete]

theorem Lockstep.expiry_removeKey {s : InMemoryStore} (h : s.Lockstep) (k : Str) :
    (s.removeKey k).expiry = s.expiry.clear k := by
  unfold removeKey
  split
  · rfl
  · next hk =>
    refine (ExpiryManager.clear_of_deadline (h.deadline_none ?_)).symm
    exact OrdMap.has_eq_false_iff.mp (by simpa using hk)

theorem Lockstep.order_removeKey {s : InMemoryStore} (h : s.Lockstep) (k : Str) :
    (s.removeKey k).lru.order = s.lru.order.erase k := by
  unfold removeKey
  split
  · exact LRUTracker.order_delete ..
  · next hk => rw [List.erase_of_not_mem]; rwa [h.tracked]

theorem Lockstep.view_removeKey {s : InMemoryStore} (h : s.Lockstep) (k : Str) :
    (s.removeKey k).view = s.view.remove k := by
  refine LruCache.ext (funext fun j => ?_) (h.order_removeKey k)
  rw [LruCache.cell_remove]
  show Option.map _ ((s.removeKey k).values.get? j) = _
  rw [values_removeKey, h.expiry_removeKey, OrdMap.get?_delete, ExpiryManager.deadline_clear]
  by_cases e : j = k <;> simp [e, view, cell]

theorem Lockstep.cell_removeKey {s : InMemoryStore} (h : s.Lockstep) (k j : Str) :
    (s.removeKey k).cell j = if j = k then none else s.cell j :=
  (congrArg (LruCache.cell · j) (h.view_removeKey k)).trans (LruCache.cell_remove ..)

theorem Lockstep.removeKey {s : InMemoryStore} (h : s.Lockstep) (k : Str) :
    (s.removeKey k).Lockstep := by
  refine lockstep_of_view ?_ fun j d hd => ?_
  · rw [h.view_removeKey, maxKeys_removeKey]; exact h.view_wf.remove k
  · rw [h.expiry_removeKey, ExpiryManager.deadline_clear] at hd
    by_cases e : j = k
    · rw [if_pos e] at hd; cases hd
    · rw [if_neg e] at hd
      rw [h.cell_removeKey, if_neg e]
      exact has_iff_cell.mp (h.deadlines j d hd)

/-- Reports and counters do not touch the key space. -/
theorem Lockstep.congr {s s' : InMemoryStore} (h : s.Lockstep) (hv : s'.values = s.values)
    (hl : s'.lru.order = s.lru.order) (he : s'.expiry = s.expiry) (hm : s'.maxKeys = s.maxKeys) :
    s'.Lockstep :=
  ⟨fun k => by rw [hl, hv]; exact h.tracked k, fun k d => by rw [he, hv]; exact h.deadlines k d,
    by rw [hv, hm]; exact h.size_le⟩

/-! ## The lazy-expiry gate -/

/-- The store after `#expireIfNeeded`. -/
def purge (s : InMemoryStore) (key : Str) (now : Int) : InMemoryStore := (s.expireIfNeeded key now).1

theorem expireIfNeeded_cases (s : InMemoryStore) (key : Str) (now : Int) :
    (s.expireIfNeeded key now = (s, false) ∧ s.purge key now = s ∧
        liveAt now (s.cell key) = s.cell key) ∨
      (s.expireIfNeeded key now = (s.purge key now, true) ∧
        s.purge key now = (s.removeKey key).onExpired key ∧
        ∃ c, s.cell key = some c ∧ c.expired now = true) := by
  unfold purge expireIfNeeded
  cases hc : s.cell key with
  | none =>
    have hh : s.values.has key = false := OrdMap.has_eq_false_iff.mpr (cell_eq_none.mp hc)
    exact .inl (by simp [hh])
  | some c =>
    have hh : s.values.has key = true := has_iff_cell.mpr (by simp [hc])
    rw [if_pos hh, isExpired_eq hc]
    cases he : c.expired now with
    | false => exact .inl (by simp [liveAt_some, he])
    | true => exact .inr (by simp [he])

theorem expireIfNeeded_of_stored {s : InMemoryStore} {key : Str} (h : s.cell key ≠ none)
    (now : Int) : s.expireIfNeeded key now =
      (s.purge key now, (liveAt now (s.cell key)).isNone) := by
  obtain ⟨c, hc⟩ := Option.ne_none_iff_exists'.mp h
  rcases expireIfNeeded_cases s key now with ⟨he, hp, hl⟩ | ⟨he, -, c', hc', hx⟩
  · rw [he, hp, hl, hc]
    rfl
  · rw [he, hc', liveAt_some, if_pos hx]
    rfl

theorem keysLoop_cons (test : Str → Bool) (now : Clock) (rest : List Str) (i : Nat)
    {s : InMemoryStore} {key : Str} (h : s.cell key ≠ none) :
    keysLoop test now (key :: rest) i s =
      ((keysLoop test now rest (i + 1) (s.purge key (now i))).1,
        if (liveAt (now i) (s.cell key)).isSome && test key then
          key :: (keysLoop test now rest (i + 1) (s.purge key (now i))).2
        else (keysLoop test now rest (i + 1) (s.purge key (now i))).2) := by
  rw [keysLoop, expireIfNeeded_of_stored h]
  simp only [Option.not_isNone]

theorem Lockstep.cell_purge {s : InMemoryStore} (h : s.Lockstep) (key : Str) (now : Int) (k : Str) :
    (s.purge key now).cell k = if k = key then liveAt now (s.cell key) else s.cell k := by
  rcases expireIfNeeded_cases s key now with ⟨-, hp, hl⟩ | ⟨-, hp, c, hc, he⟩
  · rw [hp]
    by_cases e : k = key
    · rw [if_pos e, e, hl]
    · rw [if_neg e]
  · rw [hp]
    show (s.removeKey key).cell k = _
    rw [h.cell_removeKey, hc, liveAt_some, if_pos he]

@[simp] theorem Lockstep.cell_purge_self {s : InMemoryStore} (h : s.Lockstep) (key : Str)
    (now : Int) : (s.purge key now).cell key = liveAt now (s.cell key) := by
  rw [h.cell_purge, if_pos rfl]

theorem Lockstep.purge {s : InMemoryStore} (h : s.Lockstep) (key : Str) (now : Int) :
    (s.purge key now).Lockstep := by
  rcases expireIfNeeded_cases s key now with ⟨-, hp, -⟩ | ⟨-, hp, -⟩
  · rwa [hp]
  · rw [hp]; exact (h.removeKey key).congr rfl rfl rfl rfl

@[simp] theorem maxKeys_purge (s : InMemoryStore) (key : Str) (now : Int) :
    (s.purge key now).maxKeys = s.maxKeys := by
  rcases expireIfNeeded_cases s key now with ⟨-, hp, -⟩ | ⟨-, hp, -⟩
  · rw [hp]
  · rw [hp]; exact maxKeys_removeKey s key

theorem purge_of_live {s : InMemoryStore} {key : Str} {now : Int}
    (hl : liveAt now (s.cell key) = s.cell key) : s.purge key now = s := by
  rcases expireIfNeeded_cases s key now with ⟨-, hp, -⟩ | ⟨-, -, c, hc, he⟩
  · exact hp
  · rw [hc, liveAt_some, if_pos he] at hl; cases hl

/-- The gate as seen by an operation: it reports an expiry only for a key that is gone. -/
theorem gate (s : InMemoryStore) (key : Str) (now : Int) :
    s.expireIfNeeded key now = (s.purge key now, false) ∨
      (s.expireIfNeeded key now = (s.purge key now, true) ∧
        (s.purge key now).values.get? key = none) := by
  rcases expireIfNeeded_cases s key now with ⟨he, hp, -⟩ | ⟨he, hp, -⟩
  · exact .inl (he.trans (by rw [hp]))
  · refine .inr ⟨he, ?_⟩
    rw [hp]
    show (s.removeKey key).values.get? key = none
    rw [values_removeKey, OrdMap.get?_delete, if_pos rfl]

/-! ## Effects -/

/-- What an operation does to its key once the gate is passed. -/
inductive Effect where
  | keep
  | touch
  | put (value : StoredValue) (deadline : Option Int) (counted : Bool)
  | remove
  deriving DecidableEq

def Effect.action : Effect → LruCache.Action Cell
  | keep => .keep
  | touch => .touch
  | put value deadline _ => .put ⟨value, deadline⟩
  | remove => .remove

/-- `now` is the reading `#makeRoomForNewKey` takes. -/
def commit (s : InMemoryStore) (key : Str) (now : Int) : Effect → InMemoryStore
  | .keep => s
  | .touch => s.touch key
  | .put value deadline counted =>
    let s := ((s.reserveSlotFor key now).put key value).touch key
    let s := if counted then s.markDirty else s
    { s with expiry := s.expiry.assign key deadline }
  | .remove => s.removeKey key

section

variable (s : InMemoryStore) (key : Str) (now : Int) (v : StoredValue) (d : Option Int) (b : Bool)

theorem values_commit_put : (s.commit key now (.put v d b)).values =
    (s.reserveSlotFor key now).values.set key v := by cases b <;> rfl

theorem notified_commit_put : (s.commit key now (.put v d b)).notified =
    (s.reserveSlotFor key now).notified := by cases b <;> rfl

theorem evictionCount_commit_put : (s.commit key now (.put v d b)).evictionCount =
    (s.reserveSlotFor key now).evictionCount := by cases b <;> rfl

end

theorem Lockstep.has_or_lt {s : InMemoryStore} (h : s.Lockstep) (key : Str) :
    (!s.values.has key && decide (s.values.size ≥ s.maxKeys)) = false ↔
      key ∈ s.view.order ∨ s.view.order.length < s.maxKeys := by
  show _ ↔ key ∈ s.lru.order ∨ s.lru.order.length < s.maxKeys
  rw [h.tracked, h.length_order]
  cases s.values.has key <;> simp

theorem Lockstep.reserveSlotFor_cases {s : InMemoryStore} (h : s.Lockstep) (key : Str)
    (now : Int) :
    (s.view.victim s.maxKeys key = none ∧ s.reserveSlotFor key now = s) ∨
      ∃ v, s.view.victim s.maxKeys key = some v ∧ s.values.has v = true ∧
        s.reserveSlotFor key now =
          if s.expiry.isExpired v now then (s.removeKey v).onExpired v
          else { s.removeKey v with evictionCount := s.evictionCount + 1 }.onEvicted v := by
  by_cases hr : (!s.values.has key && decide (s.values.size ≥ s.maxKeys)) = false
  · exact .inl ⟨if_pos ((h.has_or_lt key).mp hr), by simp [reserveSlotFor, hr]⟩
  · have hroom : ¬(key ∈ s.view.order ∨ s.view.order.length < s.maxKeys) :=
      fun hm => hr ((h.has_or_lt key).mpr hm)
    have hv : s.view.victim s.maxKeys key = s.lru.order.getLast? := if_neg hroom
    have hp : s.lru.peekLRU = s.lru.order.getLast? := s.lru.peekLRU_eq
    rw [reserveSlotFor, if_pos (by simpa using hr), makeRoomForNewKey, hv, hp]
    cases hl : s.lru.order.getLast? with
    | none =>
      have he : s.lru.order = [] := List.getLast?_eq_none_iff.mp hl
      have hm := s.maxKeys_pos
      have : s.view.order.length = 0 := congrArg List.length he
      exact absurd (.inr (by omega)) hroom
    | some v => exact .inr ⟨v, rfl, (h.tracked v).mp (List.mem_of_getLast? hl), rfl⟩

theorem Lockstep.view_reserveSlotFor {s : InMemoryStore} (h : s.Lockstep) (key : Str) (now : Int) :
    (s.reserveSlotFor key now).view = s.view.makeRoom s.maxKeys key := by
  rcases h.reserveSlotFor_cases key now with ⟨hv, e⟩ | ⟨v, hv, -, e⟩
  · rw [e, LruCache.makeRoom, hv]
  · rw [e, LruCache.makeRoom, hv]
    split <;> exact h.view_removeKey v

@[simp] theorem maxKeys_reserveSlotFor {s : InMemoryStore} (h : s.Lockstep) (key : Str)
    (now : Int) : (s.reserveSlotFor key now).maxKeys = s.maxKeys := by
  rcases h.reserveSlotFor_cases key now with ⟨-, e⟩ | ⟨v, -, -, e⟩
  · rw [e]
  · rw [e]; split <;> exact maxKeys_removeKey s v

theorem Lockstep.reserveSlotFor {s : InMemoryStore} (h : s.Lockstep) (key : Str) (now : Int) :
    (s.reserveSlotFor key now).Lockstep := by
  rcases h.reserveSlotFor_cases key now with ⟨-, e⟩ | ⟨v, -, -, e⟩
  · rwa [e]
  · rw [e]; split <;> exact (h.removeKey v).congr rfl rfl rfl rfl

theorem Lockstep.cell_reserveSlotFor_self {s : InMemoryStore} (h : s.Lockstep) {key : Str}
    (hc : s.cell key = none) (now : Int) : (s.reserveSlotFor key now).cell key = none := by
  rcases h.reserveSlotFor_cases key now with ⟨-, e⟩ | ⟨v, -, -, e⟩
  · rwa [e]
  · have hv : (s.removeKey v).cell key = none := by
      rw [h.cell_removeKey, hc]
      exact ite_self none
    rw [e]
    split <;> exact hv

theorem Lockstep.view_commit {s : InMemoryStore} (h : s.Lockstep) (key : Str) (now : Int)
    (e : Effect) : (s.commit key now e).view = s.view.commit s.maxKeys key e.action := by
  cases e with
  | keep => rfl
  | touch => exact LruCache.ext rfl (LRUTracker.order_touch ..)
  | remove => exact h.view_removeKey key
  | put value deadline counted =>
    have hr := h.view_reserveSlotFor key now
    refine LruCache.ext (funext fun j => ?_) ?_
    · show _ = (s.view.put s.maxKeys key _).cell j
      rw [LruCache.cell_put, ← hr]
      cases counted <;>
      · show Option.map _ (((s.reserveSlotFor key now).values.set key value).get? j) = _
        simp only [commit, touch, put, markDirty, OrdMap.get?_set, ExpiryManager.deadline_assign]
        by_cases ej : j = key <;> simp [ej, view, cell]
    · show _ = key :: (s.view.makeRoom s.maxKeys key).order.erase key
      rw [← hr]
      cases counted <;> exact LRUTracker.order_touch ..

@[simp] theorem maxKeys_commit {s : InMemoryStore} (h : s.Lockstep) (key : Str) (now : Int)
    (e : Effect) : (s.commit key now e).maxKeys = s.maxKeys := by
  cases e with
  | keep => rfl
  | touch => rfl
  | remove => exact maxKeys_removeKey s key
  | put value deadline counted =>
    have := maxKeys_reserveSlotFor h key now
    cases counted <;> exact this

/-- The effect makes sense for the cell: only a present key is touched or removed. -/
def Effect.Fits (e : Effect) (c : Option Cell) : Prop := e.action.Fits c

theorem Lockstep.commit {s : InMemoryStore} (h : s.Lockstep) {key : Str} (now : Int) {e : Effect}
    (he : e.Fits (s.cell key)) : (s.commit key now e).Lockstep := by
  have hw : (s.commit key now e).view.WF (s.commit key now e).maxKeys := by
    rw [h.view_commit, maxKeys_commit h]
    exact h.view_wf.commit s.maxKeys_pos he
  refine lockstep_of_view hw fun j d hd => ?_
  cases e with
  | keep => exact has_iff_cell.mp (h.deadlines j d hd)
  | touch => exact has_iff_cell.mp (h.deadlines j d hd)
  | remove => exact has_iff_cell.mp ((h.removeKey key).deadlines j d hd)
  | put value deadline counted =>
    have hr := h.reserveSlotFor key now
    have hd' : ((s.reserveSlotFor key now).expiry.assign key deadline).deadline j = some d := by
      cases counted <;> exact hd
    have hc : (s.commit key now (.put value deadline counted)).cell j =
        if j = key then some ⟨value, deadline⟩ else (s.reserveSlotFor key now).cell j := by
      have := congrArg (LruCache.cell · j) (h.view_commit key now (.put value deadline counted))
      refine this.trans ((LruCache.cell_put ..).trans ?_)
      rw [← h.view_reserveSlotFor key now]
      rfl
    rw [ExpiryManager.deadline_assign] at hd'
    rw [hc]
    by_cases ej : j = key
    · simp [ej]
    · rw [if_neg ej] at hd'
      rw [if_neg ej]
      exact has_iff_cell.mp (hr.deadlines j d hd')

theorem Lockstep.cell_commit_self {s : InMemoryStore} (h : s.Lockstep) (key : Str) (now : Int)
    (e : Effect) : (s.commit key now e).cell key = e.action.onCell (s.cell key) :=
  (congrArg (LruCache.cell · key) (h.view_commit key now e)).trans (LruCache.cell_commit_self _)

/-- With the key present or a slot free, only the cell of the key changes. -/
theorem Lockstep.cell_commit_of_room {s : InMemoryStore} (h : s.Lockstep) {key : Str} (now : Int)
    (hroom : s.cell key ≠ none ∨ s.size < s.maxKeys) (e : Effect) (k : Str) :
    (s.commit key now e).cell k = if k = key then e.action.onCell (s.cell key) else s.cell k := by
  have hr : key ∈ s.view.order ∨ s.view.order.length < s.maxKeys := by
    refine hroom.imp (fun hc => (h.view_wf.mem key).mpr hc) fun hs => ?_
    rw [show s.view.order = s.lru.order from rfl, h.length_order]; exact hs
  have := congrArg (LruCache.cell · k) (h.view_commit key now e)
  refine this.trans ?_
  rw [LruCache.cell_commit_of_room hr, Function.update_apply]
  rfl

end InMemoryStore

end MiniStore
