import Mathlib.Data.List.Nodup
import MiniStore.Lib.OrdMap

/-!
# Arrays with a position index

An array of distinct keys and a map from each key to its position, kept in step
under `push` and swap-removal (the last key moves into the freed place).
`Indexed keys pos` is the bijection; it makes the keys distinct.
-/

namespace DenseIndex

variable {κ : Type} [DecidableEq κ]

/-- `pos` sends exactly the elements of `keys` to their indices. -/
def Indexed (keys : List κ) (pos : OrdMap κ Nat) : Prop :=
  ∀ k i, pos.get? k = some i ↔ keys[i]? = some k

/-- Remove `key`, found at `idx`, by moving the last key into its place. -/
def swapRemove (keys : List κ) (pos : OrdMap κ Nat) (key : κ) (idx : Nat) :
    List κ × OrdMap κ Nat :=
  let lastIdx := keys.length - 1
  let lastKey := keys.getD lastIdx key
  if idx ≠ lastIdx then
    ((keys.set idx lastKey).dropLast, (pos.delete key).set lastKey idx)
  else
    (keys.dropLast, pos.delete key)

theorem indexed_empty : Indexed ([] : List κ) OrdMap.empty := fun k i => by simp

section

variable {keys : List κ} {pos : OrdMap κ Nat}

theorem Indexed.inj (h : Indexed keys pos) {i j : Nat} {k : κ} (hi : keys[i]? = some k)
    (hj : keys[j]? = some k) : i = j :=
  Option.some.inj (((h k i).mpr hi).symm.trans ((h k j).mpr hj))

theorem Indexed.nodup (h : Indexed keys pos) : keys.Nodup := by
  refine List.nodup_iff_injective_getElem.mpr fun i j e => Fin.ext (h.inj (k := keys[j]) ?_ ?_)
  · rw [List.getElem?_eq_getElem i.2]; exact congrArg some e
  · exact List.getElem?_eq_getElem j.2

theorem Indexed.mem_iff (h : Indexed keys pos) {k : κ} : k ∈ keys ↔ ∃ i, pos.get? k = some i := by
  rw [List.mem_iff_getElem?]; exact exists_congr fun i => (h k i).symm

theorem Indexed.push (h : Indexed keys pos) {k : κ} (hk : k ∉ keys) :
    Indexed (keys ++ [k]) (pos.set k keys.length) := by
  intro k' i
  rw [OrdMap.get?_set, List.getElem?_append]
  by_cases hi : i < keys.length
  · rw [if_pos hi]
    by_cases e : k' = k
    · subst e
      rw [if_pos rfl, Option.some.injEq]
      exact ⟨fun e => by omega, fun e => absurd (List.mem_of_getElem? e) hk⟩
    · rw [if_neg e, h]
  · rw [if_neg hi]
    have hnone : pos.get? k' ≠ some i := fun e =>
      hi (List.getElem?_eq_some_iff.mp ((h k' i).mp e)).1
    by_cases e : k' = k
    · subst e
      rw [if_pos rfl, Option.some.injEq]
      constructor
      · intro e; subst e; simp
      · intro e
        have := (List.getElem?_eq_some_iff.mp e).1
        simp only [List.length_singleton] at this
        omega
    · rw [if_neg e]
      refine ⟨fun e' => absurd e' hnone, fun e' => ?_⟩
      have := List.mem_of_getElem? e'
      exact absurd (List.mem_singleton.mp this) e

theorem getElem?_swapRemove {key : κ} {idx : Nat} (hidx : keys[idx]? = some key) (i : Nat) :
    (swapRemove keys pos key idx).1[i]? =
      if i < keys.length - 1 then if i = idx then keys[keys.length - 1]? else keys[i]? else none := by
  have hlt := (List.getElem?_eq_some_iff.mp hidx).1
  have hlast : keys[keys.length - 1]? = some (keys.getD (keys.length - 1) key) := by
    rw [List.getD_eq_getElem?_getD, List.getElem?_eq_getElem (by omega)]; rfl
  unfold swapRemove
  rw [hlast]
  simp only
  by_cases hi : i < keys.length - 1
  · rw [if_pos hi]
    by_cases hne : idx = keys.length - 1
    · have : i ≠ idx := by omega
      simp [hne, hi, show i ≠ keys.length - 1 by omega]
    · simp only [ne_eq, hne, not_false_eq_true, if_true, List.getElem?_dropLast, List.length_set,
        if_pos hi, List.getElem?_set]
      by_cases e : i = idx
      · subst e; simp [hlt]
      · simp [e, Ne.symm e]
  · rw [if_neg hi]
    split <;> simp [hi]

theorem get?_swapRemove {key : κ} {idx : Nat} (h : Indexed keys pos) (hidx : keys[idx]? = some key)
    (k : κ) : (swapRemove keys pos key idx).2.get? k =
      if k = key then none else if keys[keys.length - 1]? = some k then some idx else pos.get? k := by
  have hlt := (List.getElem?_eq_some_iff.mp hidx).1
  have hlast : keys[keys.length - 1]? = some (keys.getD (keys.length - 1) key) := by
    rw [List.getD_eq_getElem?_getD, List.getElem?_eq_getElem (by omega)]; rfl
  unfold swapRemove
  simp only
  split
  · next hne =>
    have hkl : key ≠ keys.getD (keys.length - 1) key := fun e => by
      rw [← e] at hlast; exact hne (h.inj hidx hlast)
    rw [OrdMap.get?_set, OrdMap.get?_delete, hlast]
    by_cases e1 : k = keys.getD (keys.length - 1) key
    · rw [if_pos e1, if_neg (fun e => hkl (e.symm.trans e1)), if_pos (by rw [e1])]
    · rw [if_neg e1, if_neg (fun e => e1 (Option.some.inj e).symm)]
  · next he =>
    have he : idx = keys.length - 1 := not_not.mp he
    rw [OrdMap.get?_delete]
    by_cases e : k = key
    · simp [e]
    · rw [if_neg e, if_neg e, ← he, hidx, if_neg (fun e' => e (Option.some.inj e').symm)]

theorem Indexed.swapRemove (h : Indexed keys pos) {key : κ} {idx : Nat}
    (hidx : keys[idx]? = some key) :
    Indexed (DenseIndex.swapRemove keys pos key idx).1 (DenseIndex.swapRemove keys pos key idx).2 := by
  have hlt := (List.getElem?_eq_some_iff.mp hidx).1
  intro k i
  rw [getElem?_swapRemove hidx, get?_swapRemove h hidx]
  by_cases e1 : k = key
  · subst e1
    rw [if_pos rfl]
    refine ⟨fun e => (nomatch e), fun e => ?_⟩
    split at e
    · next hi =>
      split at e
      · have := h.inj hidx e; omega
      · next hne => exact absurd (h.inj e hidx) hne
    · cases e
  · rw [if_neg e1]
    by_cases e2 : keys[keys.length - 1]? = some k
    · rw [if_pos e2, Option.some.injEq]
      have hne : idx ≠ keys.length - 1 := fun e => e1 (by
        rw [← e, hidx] at e2; exact (Option.some.inj e2).symm)
      constructor
      · intro e; subst e; rw [if_pos (by omega), if_pos rfl, e2]
      · intro e
        split at e
        · next hi =>
          split at e
          · next e' => exact e'.symm
          · have := h.inj e e2; omega
        · cases e
    · rw [if_neg e2, h]
      constructor
      · intro e
        have hi := (List.getElem?_eq_some_iff.mp e).1
        have hnl : i ≠ keys.length - 1 := fun e' => e2 (e' ▸ e)
        have hni : i ≠ idx := fun e' => e1 (by
          rw [e', hidx] at e; exact (Option.some.inj e).symm)
        rw [if_pos (by omega), if_neg hni, e]
      · intro e
        split at e
        · split at e
          · exact absurd e e2
          · exact e
        · cases e

theorem Indexed.mem_swapRemove (h : Indexed keys pos) {key : κ} {idx : Nat}
    (hidx : keys[idx]? = some key) {k : κ} :
    k ∈ (DenseIndex.swapRemove keys pos key idx).1 ↔ k ≠ key ∧ k ∈ keys := by
  rw [(h.swapRemove hidx).mem_iff, h.mem_iff]
  have hkey := (h key idx).mpr hidx
  rw [get?_swapRemove h hidx]
  by_cases e1 : k = key
  · simp [e1]
  · rw [if_neg e1]
    by_cases e2 : keys[keys.length - 1]? = some k
    · simp [e1, e2, (h k _).mpr e2]
    · simp [e1, e2]

end

end DenseIndex
