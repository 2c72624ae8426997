import MiniStore.Lib.DenseIndex
import MiniStore.Lib.Text

/-!
# ExpiryManager

Deadlines live in the map `#expiresAt`; the same keys are mirrored in the dense
array `#keys` with their positions in `#pos`, so that a key can be swap-removed
and a rotating cursor can sample the keys. `ExpiryManager.Raw` holds the four
fields, `Raw.WF` says the three structures carry the same keys, and
`ExpiryManager` is a raw manager with that proof.

`deadline` is the view the store reasons with: `deadline_set`,
`deadline_clear`, and `collectExpired_expired` for the sweep sample.
-/

namespace MiniStore

namespace ExpiryManager

open DenseIndex

/-- The fields of the class. Times are epoch milliseconds. -/
structure Raw where
  expiresAt : OrdMap Str Int
  keys : List Str
  pos : OrdMap Str Nat
  cursor : Nat
  deriving DecidableEq

namespace Raw

def empty : Raw := ⟨OrdMap.empty, [], OrdMap.empty, 0⟩

def has (t : Raw) (key : Str) : Bool := t.expiresAt.has key

def set (t : Raw) (key : Str) (expiresAtMs : Int) : Raw :=
  if t.expiresAt.has key then
    { t with expiresAt := t.expiresAt.set key expiresAtMs } -- array position unchanged
  else
    { t with
      expiresAt := t.expiresAt.set key expiresAtMs
      pos := t.pos.set key t.keys.length
      keys := t.keys ++ [key] }

def clear (t : Raw) (key : Str) : Raw × Bool :=
  match t.pos.get? key with
  | none => (t, false)
  | some idx =>
    let (keys, pos) := swapRemove t.keys t.pos key idx
    ({ t with expiresAt := t.expiresAt.delete key, pos := pos, keys := keys }, true)

def isExpired (t : Raw) (key : Str) (nowMs : Int) : Bool :=
  match t.expiresAt.get? key with
  | none => false
  | some exp => decide (exp ≤ nowMs)

def remainingMs (t : Raw) (key : Str) (nowMs : Int) : Option Int :=
  (t.expiresAt.get? key).map fun exp => max 0 (exp - nowMs)

/-- The body of the sampling loop, `n` times. -/
def collectLoop (nowMs : Int) : Nat → Raw → List Str → Raw × List Str
  | 0, t, expired => (t, expired)
  | n + 1, t, expired =>
    let cursor := if t.cursor ≥ t.keys.length then 0 else t.cursor
    let expired := match t.keys[cursor]? with
      | some key => if t.isExpired key nowMs then expired ++ [key] else expired
      | none => expired
    collectLoop nowMs n { t with cursor := cursor + 1 } expired

def collectExpired (t : Raw) (nowMs : Int) (limit : Int) : Raw × List Str :=
  let n := t.keys.length
  if n = 0 ∨ limit ≤ 0 then (t, [])
  else
    let (t, expired) := collectLoop nowMs (min limit.toNat n) t []
    ({ t with cursor := t.cursor % n }, expired)

/-- `#keys`, `#pos` and `#expiresAt` carry the same keys. -/
structure WF (t : Raw) : Prop where
  indexed : Indexed t.keys t.pos
  mem : ∀ k, k ∈ t.keys ↔ t.expiresAt.has k = true

theorem wf_empty : empty.WF where
  indexed := indexed_empty
  mem := fun k => by simp [empty]

theorem WF.set {t : Raw} (h : t.WF) (key : Str) (d : Int) : (t.set key d).WF := by
  unfold Raw.set
  split
  · next hk =>
    refine ⟨h.indexed, fun k => ?_⟩
    rw [OrdMap.has_set, h.mem]
    by_cases e : k = key <;> simp [e, hk]
  · next hk =>
    refine ⟨h.indexed.push fun hm => hk ((h.mem key).mp hm), fun k => ?_⟩
    rw [OrdMap.has_set, List.mem_append, h.mem]
    by_cases e : k = key <;> simp [e]

theorem WF.clear {t : Raw} (h : t.WF) (key : Str) : (t.clear key).1.WF := by
  unfold Raw.clear
  split
  · exact h
  · next idx hidx =>
    have hk := (h.indexed key idx).mp hidx
    refine ⟨h.indexed.swapRemove hk, fun k => ?_⟩
    rw [h.indexed.mem_swapRemove hk, h.mem, OrdMap.has_delete]
    by_cases e : k = key <;> simp [e]

theorem get?_set (t : Raw) (key k : Str) (d : Int) :
    (t.set key d).expiresAt.get? k = if k = key then some d else t.expiresAt.get? k := by
  unfold set
  split <;> exact OrdMap.get?_set ..

theorem get?_clear {t : Raw} (h : t.WF) (key k : Str) :
    (t.clear key).1.expiresAt.get? k = if k = key then none else t.expiresAt.get? k := by
  unfold Raw.clear
  split
  · next hidx =>
    by_cases e : k = key
    · have : key ∉ t.keys := fun hm => by
        obtain ⟨i, hi⟩ := h.indexed.mem_iff.mp hm
        rw [hidx] at hi; cases hi
      rw [h.mem, Bool.not_eq_true, OrdMap.has_eq_false_iff] at this
      rw [e, if_pos rfl, this]
    · rw [if_neg e]
  · exact OrdMap.get?_delete ..

theorem collectLoop_fields (now : Int) : ∀ (n : Nat) (t : Raw) (acc : List Str),
    (collectLoop now n t acc).1.expiresAt = t.expiresAt ∧
      (collectLoop now n t acc).1.keys = t.keys ∧ (collectLoop now n t acc).1.pos = t.pos
  | 0, _, _ => ⟨rfl, rfl, rfl⟩
  | n + 1, t, _ => collectLoop_fields now n { t with cursor := _ } _

theorem collectLoop_expired (now : Int) : ∀ (n : Nat) (t : Raw) (acc : List Str),
    (∀ k ∈ acc, t.isExpired k now = true) →
      ∀ k ∈ (collectLoop now n t acc).2, t.isExpired k now = true
  | 0, _, _, h => h
  | n + 1, t, acc, h => by
    refine collectLoop_expired now n { t with cursor := _ } _ fun k hk => ?_
    show t.isExpired k now = true
    split at hk
    · split at hk
      · next key _ hexp =>
        rcases List.mem_append.mp hk with hk | hk
        · exact h k hk
        · rw [List.mem_singleton.mp hk]; exact hexp
      · exact h k hk
    · exact h k hk

theorem collectExpired_fields (t : Raw) (now limit : Int) :
    (t.collectExpired now limit).1.expiresAt = t.expiresAt ∧
      (t.collectExpired now limit).1.keys = t.keys ∧ (t.collectExpired now limit).1.pos = t.pos := by
  unfold collectExpired
  simp only
  split
  · exact ⟨rfl, rfl, rfl⟩
  · exact collectLoop_fields now _ t []

theorem WF.collectExpired {t : Raw} (h : t.WF) (now limit : Int) :
    (t.collectExpired now limit).1.WF := by
  obtain ⟨h1, h2, h3⟩ := collectExpired_fields t now limit
  exact ⟨by rw [h2, h3]; exact h.indexed, fun k => by rw [h1, h2]; exact h.mem k⟩

end Raw

end ExpiryManager

/-- A deadline table whose three structures agree. -/
structure ExpiryManager where
  raw : ExpiryManager.Raw
  wf : raw.WF
  deriving DecidableEq

namespace ExpiryManager

def empty : ExpiryManager := ⟨Raw.empty, Raw.wf_empty⟩

def has (t : ExpiryManager) (key : Str) : Bool := t.raw.has key

def set (t : ExpiryManager) (key : Str) (expiresAtMs : Int) : ExpiryManager :=
  ⟨t.raw.set key expiresAtMs, t.wf.set key expiresAtMs⟩

def clear (t : ExpiryManager) (key : Str) : ExpiryManager := ⟨(t.raw.clear key).1, t.wf.clear key⟩

def isExpired (t : ExpiryManager) (key : Str) (nowMs : Int) : Bool := t.raw.isExpired key nowMs

def remainingMs (t : ExpiryManager) (key : Str) (nowMs : Int) : Option Int :=
  t.raw.remainingMs key nowMs

def collectExpired (t : ExpiryManager) (nowMs limit : Int) : ExpiryManager × List Str :=
  (⟨(t.raw.collectExpired nowMs limit).1, t.wf.collectExpired nowMs limit⟩,
    (t.raw.collectExpired nowMs limit).2)

def deadline (t : ExpiryManager) (key : Str) : Option Int := t.raw.expiresAt.get? key

@[simp] theorem deadline_empty (k : Str) : empty.deadline k = none := rfl

theorem deadline_set (t : ExpiryManager) (key k : Str) (d : Int) :
    (t.set key d).deadline k = if k = key then some d else t.deadline k :=
  Raw.get?_set t.raw key k d

theorem deadline_clear (t : ExpiryManager) (key k : Str) :
    (t.clear key).deadline k = if k = key then none else t.deadline k :=
  Raw.get?_clear t.wf key k

@[simp] theorem deadline_collectExpired (t : ExpiryManager) (now limit : Int) (k : Str) :
    (t.collectExpired now limit).1.deadline k = t.deadline k :=
  congrArg (OrdMap.get? · k) (Raw.collectExpired_fields t.raw now limit).1

theorem isExpired_eq (t : ExpiryManager) (k : Str) (now : Int) :
    t.isExpired k now = true ↔ ∃ d, t.deadline k = some d ∧ d ≤ now := by
  unfold isExpired Raw.isExpired deadline
  cases t.raw.expiresAt.get? k <;> simp

theorem has_eq (t : ExpiryManager) (k : Str) : t.has k = (t.deadline k).isSome := rfl

theorem remainingMs_eq (t : ExpiryManager) (k : Str) (now : Int) :
    t.remainingMs k now = (t.deadline k).map fun d => max 0 (d - now) := rfl

theorem collectExpired_expired (t : ExpiryManager) (now limit : Int) :
    ∀ k ∈ (t.collectExpired now limit).2, t.isExpired k now = true := by
  intro k hk
  unfold collectExpired Raw.collectExpired at hk
  simp only at hk
  split at hk
  · cases hk
  · exact Raw.collectLoop_expired now _ t.raw [] (fun _ h => nomatch h) k hk

theorem set_of_deadline {t : ExpiryManager} {k : Str} {d : Int} (h : t.deadline k = some d) :
    t.set k d = t := by
  obtain ⟨r, hr⟩ := t
  have hs : r.expiresAt.set k d = r.expiresAt := OrdMap.set_of_get? h
  have hk : r.expiresAt.has k = true := OrdMap.has_of_get? h
  simp [set, Raw.set, hk, hs]

theorem clear_of_deadline {t : ExpiryManager} {k : Str} (h : t.deadline k = none) :
    t.clear k = t := by
  obtain ⟨r, hr⟩ := t
  have hk : r.pos.get? k = none := by
    cases hp : r.pos.get? k with
    | none => rfl
    | some i =>
      have := (hr.mem k).mp (hr.indexed.mem_iff.mpr ⟨i, hp⟩)
      rw [OrdMap.has_eq_false_iff.mpr h] at this
      cases this
  simp [clear, Raw.clear, hk]

end ExpiryManager

end MiniStore
