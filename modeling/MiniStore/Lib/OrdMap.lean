import Mathlib.Data.List.Perm.Subperm

/-!
# Insertion-ordered maps

`OrdMap κ ν` is a finite map that remembers the order in which its keys were
added: `set` on a present key keeps its place, `set` on a new key appends it,
`delete` closes the gap. These are the rules of the ECMAScript `Map`. That no
key occurs twice is a field of the structure. `get?` is the lookup view; the
lemmas below give `get?`, `keys` and `size` after every operation.
-/

/-- A finite map together with the order its keys were added in. -/
@[ext] structure OrdMap (κ ν : Type) where
  entries : List (κ × ν)
  nodup : (entries.map Prod.fst).Nodup
  deriving DecidableEq

namespace OrdMap

variable {κ ν : Type}

def empty : OrdMap κ ν := ⟨[], List.nodup_nil⟩

/-- The keys, oldest first. -/
def keys (m : OrdMap κ ν) : List κ := m.entries.map Prod.fst

def size (m : OrdMap κ ν) : Nat := m.entries.length

theorem keys_nodup (m : OrdMap κ ν) : m.keys.Nodup := m.nodup

@[simp] theorem length_keys (m : OrdMap κ ν) : m.keys.length = m.size := by simp [keys, size]

@[simp] theorem keys_empty : (empty : OrdMap κ ν).keys = [] := rfl

@[simp] theorem size_empty : (empty : OrdMap κ ν).size = 0 := rfl

variable [DecidableEq κ]

def get? (m : OrdMap κ ν) (k : κ) : Option ν := m.entries.lookup k

def has (m : OrdMap κ ν) (k : κ) : Bool := (m.get? k).isSome

/-- Overwrite the entry of `k` where it stands, or append one. -/
def setEntry (k : κ) (v : ν) : List (κ × ν) → List (κ × ν)
  | [] => [(k, v)]
  | e :: es => if e.1 = k then (k, v) :: es else e :: setEntry k v es

theorem map_fst_setEntry (k : κ) (v : ν) (es : List (κ × ν)) :
    (setEntry k v es).map Prod.fst =
      if k ∈ es.map Prod.fst then es.map Prod.fst else es.map Prod.fst ++ [k] := by
  induction es with
  | nil => rfl
  | cons e es ih =>
    by_cases h : e.1 = k
    · simp [setEntry, h]
    · simp only [setEntry, if_neg h, List.map_cons, ih, List.mem_cons]
      by_cases hk : k ∈ es.map Prod.fst
      · simp [hk]
      · simp [hk, Ne.symm h]

theorem nodup_setEntry (k : κ) (v : ν) {es : List (κ × ν)} (h : (es.map Prod.fst).Nodup) :
    ((setEntry k v es).map Prod.fst).Nodup := by
  rw [map_fst_setEntry]
  split
  · exact h
  · next hk => exact List.nodup_append.mpr ⟨h, by simp, fun a ha b hb e => by simp_all⟩

def set (m : OrdMap κ ν) (k : κ) (v : ν) : OrdMap κ ν :=
  ⟨setEntry k v m.entries, nodup_setEntry k v m.nodup⟩

def delete (m : OrdMap κ ν) (k : κ) : OrdMap κ ν :=
  ⟨m.entries.filter fun e => e.1 != k, (List.filter_sublist.map Prod.fst).nodup m.nodup⟩

/-! ## Lookup -/

@[simp] theorem get?_empty (k : κ) : (empty : OrdMap κ ν).get? k = none := rfl

theorem lookup_setEntry (k k' : κ) (v : ν) (es : List (κ × ν)) :
    (setEntry k v es).lookup k' = if k' = k then some v else es.lookup k' := by
  induction es with
  | nil =>
    by_cases h : k' = k
    · simp [setEntry, h]
    · simp [setEntry, h]
  | cons e es ih =>
    by_cases he : e.1 = k
    · by_cases h : k' = k
      · simp [setEntry, he, h]
      · have hb : (k' == k) = false := beq_eq_false_iff_ne.mpr h
        rw [setEntry, if_pos he, List.lookup_cons, List.lookup_cons, he, hb, if_neg h]
    · rw [setEntry, if_neg he, List.lookup_cons, List.lookup_cons, ih]
      by_cases h : k' = k
      · subst h; simp [beq_eq_false_iff_ne.mpr (Ne.symm he)]
      · simp [h]

theorem get?_set (m : OrdMap κ ν) (k k' : κ) (v : ν) :
    (m.set k v).get? k' = if k' = k then some v else m.get? k' :=
  lookup_setEntry k k' v m.entries

@[simp] theorem get?_set_self (m : OrdMap κ ν) (k : κ) (v : ν) : (m.set k v).get? k = some v := by
  rw [get?_set, if_pos rfl]

theorem lookup_filter_ne (k k' : κ) (es : List (κ × ν)) :
    (es.filter fun e => e.1 != k).lookup k' = if k' = k then none else es.lookup k' := by
  induction es with
  | nil => simp
  | cons e es ih =>
    by_cases he : e.1 = k
    · rw [List.filter_cons_of_neg (by simp [he]), ih]
      by_cases h : k' = k
      · simp [h]
      · rw [if_neg h, if_neg h, List.lookup_cons, he, beq_eq_false_iff_ne.mpr h]
    · rw [List.filter_cons_of_pos (by simp [he]), List.lookup_cons, List.lookup_cons, ih]
      by_cases h : k' = k
      · subst h; simp [beq_eq_false_iff_ne.mpr (Ne.symm he)]
      · simp [h]

theorem get?_delete (m : OrdMap κ ν) (k k' : κ) :
    (m.delete k).get? k' = if k' = k then none else m.get? k' :=
  lookup_filter_ne k k' m.entries

theorem mem_entries_iff {m : OrdMap κ ν} {k : κ} {v : ν} :
    (k, v) ∈ m.entries ↔ m.get? k = some v := by
  obtain ⟨es, hn⟩ := m
  show (k, v) ∈ es ↔ es.lookup k = some v
  induction es with
  | nil => simp
  | cons e es ih =>
    obtain ⟨k0, v0⟩ := e
    obtain ⟨h0, hn'⟩ := List.nodup_cons.mp hn
    rw [List.mem_cons, ih hn', List.lookup_cons]
    by_cases h : k = k0
    · subst h
      have hk : es.lookup k ≠ some v := fun hl =>
        h0 (List.mem_map_of_mem (f := Prod.fst) (a := (k, v)) ((ih hn').mpr hl))
      simp [hk, eq_comm]
    · simp [h, beq_eq_false_iff_ne.mpr h]

theorem mem_keys_iff {m : OrdMap κ ν} {k : κ} : k ∈ m.keys ↔ ∃ v, m.get? k = some v := by
  simp only [keys, List.mem_map, Prod.exists, exists_and_right, exists_eq_right, mem_entries_iff]

theorem mem_keys_iff_has {m : OrdMap κ ν} {k : κ} : k ∈ m.keys ↔ m.has k = true := by
  rw [mem_keys_iff, has, Option.isSome_iff_exists]

theorem get?_eq_none_iff {m : OrdMap κ ν} {k : κ} : m.get? k = none ↔ k ∉ m.keys := by
  rw [mem_keys_iff]; cases m.get? k <;> simp

theorem has_iff {m : OrdMap κ ν} {k : κ} : m.has k = true ↔ ∃ v, m.get? k = some v := by
  rw [← mem_keys_iff_has, mem_keys_iff]

theorem has_eq_false_iff {m : OrdMap κ ν} {k : κ} : m.has k = false ↔ m.get? k = none := by
  unfold has; cases m.get? k <;> simp

theorem has_of_get? {m : OrdMap κ ν} {k : κ} {v : ν} (h : m.get? k = some v) : m.has k = true :=
  has_iff.mpr ⟨v, h⟩

@[simp] theorem has_empty (k : κ) : (empty : OrdMap κ ν).has k = false := rfl

theorem has_set (m : OrdMap κ ν) (k k' : κ) (v : ν) :
    (m.set k v).has k' = (decide (k' = k) || m.has k') := by
  unfold has; rw [get?_set]; by_cases h : k' = k <;> simp [h]

theorem has_delete (m : OrdMap κ ν) (k k' : κ) :
    (m.delete k).has k' = (!decide (k' = k) && m.has k') := by
  unfold has; rw [get?_delete]; by_cases h : k' = k <;> simp [h]

/-! ## Keys and size -/

theorem keys_set_of_has {m : OrdMap κ ν} {k : κ} {v : ν} (h : m.has k = true) :
    (m.set k v).keys = m.keys :=
  (map_fst_setEntry k v m.entries).trans (if_pos (mem_keys_iff_has.mpr h))

theorem keys_set_of_new {m : OrdMap κ ν} {k : κ} {v : ν} (h : m.has k = false) :
    (m.set k v).keys = m.keys ++ [k] :=
  (map_fst_setEntry k v m.entries).trans (if_neg (get?_eq_none_iff.mp (has_eq_false_iff.mp h)))

theorem setEntry_of_not_mem {k : κ} {v : ν} : ∀ {es : List (κ × ν)}, k ∉ es.map Prod.fst →
    setEntry k v es = es ++ [(k, v)]
  | [], _ => rfl
  | e :: es, h => by
    rw [List.map_cons, List.mem_cons, not_or] at h
    rw [setEntry, if_neg (Ne.symm h.1), setEntry_of_not_mem h.2]
    rfl

theorem entries_set_of_new {m : OrdMap κ ν} {k : κ} {v : ν} (h : m.has k = false) :
    (m.set k v).entries = m.entries ++ [(k, v)] :=
  setEntry_of_not_mem (get?_eq_none_iff.mp (has_eq_false_iff.mp h))

theorem mem_keys_set {m : OrdMap κ ν} {k k' : κ} {v : ν} :
    k' ∈ (m.set k v).keys ↔ k' = k ∨ k' ∈ m.keys := by
  rw [mem_keys_iff_has, has_set, mem_keys_iff_has]; simp

theorem keys_delete (m : OrdMap κ ν) (k : κ) : (m.delete k).keys = m.keys.erase k := by
  rw [m.keys_nodup.erase_eq_filter]
  simp only [keys, delete, List.filter_map]; rfl

theorem size_set_of_has {m : OrdMap κ ν} {k : κ} {v : ν} (h : m.has k = true) :
    (m.set k v).size = m.size := by
  rw [← length_keys, keys_set_of_has h, length_keys]

theorem size_set_of_new {m : OrdMap κ ν} {k : κ} {v : ν} (h : m.has k = false) :
    (m.set k v).size = m.size + 1 := by
  rw [← length_keys, keys_set_of_new h, List.length_append, length_keys]; rfl

/-! ## Operations that change nothing -/

theorem setEntry_self {k : κ} {v : ν} : ∀ {es : List (κ × ν)}, es.lookup k = some v →
    setEntry k v es = es
  | [], h => by simp at h
  | e :: es, h => by
    obtain ⟨k0, v0⟩ := e
    rw [List.lookup_cons] at h
    by_cases hk : k0 = k
    · subst hk; simp only [beq_self_eq_true, Option.some.injEq] at h; simp [setEntry, h]
    · rw [beq_eq_false_iff_ne.mpr (Ne.symm hk)] at h
      simp [setEntry, hk, setEntry_self h]

theorem set_of_get? {m : OrdMap κ ν} {k : κ} {v : ν} (h : m.get? k = some v) : m.set k v = m :=
  OrdMap.ext (setEntry_self h)

theorem delete_of_not_has {m : OrdMap κ ν} {k : κ} (h : m.has k = false) : m.delete k = m := by
  refine OrdMap.ext (List.filter_eq_self.mpr fun e he => ?_)
  have hk := get?_eq_none_iff.mp (has_eq_false_iff.mp h)
  have : e.1 ≠ k := fun e1 => hk (e1 ▸ List.mem_map_of_mem (f := Prod.fst) he)
  simpa using this

theorem setEntry_twice (k : κ) (v w : ν) : ∀ es : List (κ × ν),
    setEntry k w (setEntry k v es) = setEntry k w es
  | [] => by simp [setEntry]
  | e :: es => by
    by_cases h : e.1 = k
    · simp [setEntry, h]
    · simp [setEntry, h, setEntry_twice k v w es]

@[simp] theorem set_set (m : OrdMap κ ν) (k : κ) (v w : ν) : (m.set k v).set k w = m.set k w :=
  OrdMap.ext (setEntry_twice k v w m.entries)

theorem filter_setEntry (k : κ) (v : ν) : ∀ es : List (κ × ν),
    (setEntry k v es).filter (fun e => e.1 != k) = es.filter fun e => e.1 != k
  | [] => by simp [setEntry]
  | e :: es => by
    by_cases h : e.1 = k
    · simp [setEntry, h]
    · simp [setEntry, h, filter_setEntry k v es]

@[simp] theorem delete_set (m : OrdMap κ ν) (k : κ) (v : ν) : (m.set k v).delete k = m.delete k :=
  OrdMap.ext (filter_setEntry k v m.entries)

omit [DecidableEq κ] in
theorem size_le_of_keys_subset {m : OrdMap κ ν} {l : List κ} (h : ∀ k ∈ m.keys, k ∈ l) :
    m.size ≤ l.length := by
  rw [← length_keys]; exact (m.keys_nodup.subperm h).length_le

end OrdMap
