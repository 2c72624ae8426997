import MiniStore.Lib.OrdMap
import Mathlib.Data.Set.Card

/-!
# Maps from keys to sets

A map of sets, each set the list of its elements, stands for a relation: `Represents m R` says
that the elements kept under `k` are those `R` relates to it. `Populated` says that no empty set
is kept. One lemma for each operation gives the relation after it.
-/

namespace OrdMap

variable {κ α : Type} [DecidableEq κ]

def elems (m : OrdMap κ (List α)) (k : κ) : List α := (m.get? k).getD []

/-- The sets of the map are those of the relation. -/
def Represents (m : OrdMap κ (List α)) (R : κ → α → Prop) : Prop :=
  ∀ k, (m.elems k).Nodup ∧ ∀ a, a ∈ m.elems k ↔ R k a

/-- No empty set is kept. -/
def Populated (m : OrdMap κ (List α)) : Prop := ∀ k, m.get? k ≠ some []

theorem elems_of_get? {m : OrdMap κ (List α)} {k : κ} {s : List α} (h : m.get? k = some s) :
    m.elems k = s := by
  rw [elems, h, Option.getD_some]

theorem elems_of_none {m : OrdMap κ (List α)} {k : κ} (h : m.get? k = none) : m.elems k = [] := by
  rw [elems, h, Option.getD_none]

theorem elems_set (m : OrdMap κ (List α)) (k k' : κ) (s : List α) :
    (m.set k s).elems k' = if k' = k then s else m.elems k' := by
  unfold elems
  rw [get?_set]
  split
  · rfl
  · rfl

theorem elems_delete (m : OrdMap κ (List α)) (k k' : κ) :
    (m.delete k).elems k' = if k' = k then [] else m.elems k' := by
  unfold elems
  rw [get?_delete]
  split
  · rfl
  · rfl

theorem mem_elems_iff {m : OrdMap κ (List α)} {k : κ} {a : α} :
    a ∈ m.elems k ↔ ∃ s, m.get? k = some s ∧ a ∈ s := by
  unfold elems
  cases m.get? k with
  | none => simp
  | some s => simp

theorem represents_empty : (empty : OrdMap κ (List α)).Represents fun _ _ => False :=
  fun _ => ⟨List.nodup_nil, fun _ => iff_of_false List.not_mem_nil id⟩

theorem populated_empty : (empty : OrdMap κ (List α)).Populated := fun _ h => by
  rw [get?_empty] at h
  cases h

section

variable {m : OrdMap κ (List α)} {R R' : κ → α → Prop} {k : κ}

theorem Represents.congr (h : m.Represents R) (he : ∀ k a, R' k a ↔ R k a) : m.Represents R' :=
  fun k => ⟨(h k).1, fun a => ((h k).2 a).trans (he k a).symm⟩

theorem Represents.set (h : m.Represents R) {s : List α} (hs : s.Nodup)
    (hk : ∀ a, a ∈ s ↔ R' k a) (hother : ∀ k' a, k' ≠ k → (R' k' a ↔ R k' a)) :
    (m.set k s).Represents R' := by
  intro k'
  rw [elems_set]
  by_cases hkk : k' = k
  · subst hkk
    rw [if_pos rfl]
    exact ⟨hs, hk⟩
  · rw [if_neg hkk]
    exact ⟨(h k').1, fun a => ((h k').2 a).trans (hother k' a hkk).symm⟩

theorem Represents.delete (h : m.Represents R) (hk : ∀ a, ¬ R' k a)
    (hother : ∀ k' a, k' ≠ k → (R' k' a ↔ R k' a)) : (m.delete k).Represents R' := by
  intro k'
  rw [elems_delete]
  by_cases hkk : k' = k
  · subst hkk
    rw [if_pos rfl]
    exact ⟨List.nodup_nil, fun a => iff_of_false List.not_mem_nil (hk a)⟩
  · rw [if_neg hkk]
    exact ⟨(h k').1, fun a => ((h k').2 a).trans (hother k' a hkk).symm⟩

theorem Populated.set (h : m.Populated) {s : List α} (hs : s ≠ []) : (m.set k s).Populated := by
  intro k' hk'
  rw [get?_set] at hk'
  split at hk'
  · exact hs (Option.some.inj hk')
  · exact h k' hk'

theorem Populated.delete (h : m.Populated) : (m.delete k).Populated := by
  intro k' hk'
  rw [get?_delete] at hk'
  split at hk'
  · cases hk'
  · exact h k' hk'

/-- A key is kept exactly when something is related to it. -/
theorem Represents.get?_eq_none_iff (h : m.Represents R) (hp : m.Populated) :
    m.get? k = none ↔ ∀ a, ¬ R k a := by
  constructor
  · intro hk a ha
    have hmem := ((h k).2 a).mpr ha
    rw [elems_of_none hk] at hmem
    cases hmem
  · intro hnone
    cases hk : m.get? k with
    | none => rfl
    | some s =>
      rcases s with _ | ⟨a, s⟩
      · exact absurd hk (hp k)
      · have hmem : a ∈ m.elems k := elems_of_get? hk ▸ List.mem_cons_self
        exact absurd (((h k).2 a).mp hmem) (hnone a)

theorem Represents.encard (h : m.Represents R) : Set.encard {a | R k a} = (m.elems k).length := by
  classical
  have hset : {a | R k a} = ((m.elems k).toFinset : Set α) := by
    ext a
    rw [Set.mem_ofPred_eq, List.coe_toFinset, Set.mem_ofPred_eq, (h k).2]
  rw [hset, Set.encard_coe_eq_coe_finsetCard, List.toFinset_card_of_nodup (h k).1]

end

end OrdMap
