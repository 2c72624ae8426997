import MiniStore.Lib.OrdMap
import MiniStore.Lib.Text
import Mathlib.Data.List.Sort

/-!
# Plain objects used as dictionaries

An ECMAScript object literal `{}` that is filled by assignment. Assigning to
`__proto__` goes to the setter of `Object.prototype` and creates no own property
(`get?_assign`). `entries` lists the own properties in the order of
`Object.entries`: array indices ascending, then the other names in the order
they were added. It is a permutation of the properties (`entries_perm`), so what
does not depend on the order can be read off `get?`.
-/

/-- The own properties of a plain object. -/
@[ext] structure PlainObject (ν : Type) where
  props : OrdMap Str ν
  deriving DecidableEq

namespace PlainObject

variable {ν : Type}

/-- The name whose assignment sets the prototype. -/
def protoKey : Str := "__proto__".toList

def empty : PlainObject ν := ⟨OrdMap.empty⟩

def get? (o : PlainObject ν) (k : Str) : Option ν := o.props.get? k

/-- `o[k] = v`. -/
def assign (o : PlainObject ν) (k : Str) (v : ν) : PlainObject ν :=
  if k = protoKey then o else ⟨o.props.set k v⟩

/-- The array index a name spells in canonical form; the greatest is `2 ^ 32 - 2`. -/
def arrayIndex? (k : Str) : Option Nat :=
  if !k.isEmpty && k.all Char.isDigit && (k.head? != some '0' || k.length == 1) then
    let n := k.foldl (fun n c => 10 * n + (c.toNat - 48)) 0
    if n < 4294967295 then some n else none
  else none

def indexLe (a b : Str × ν) : Prop := (arrayIndex? a.1).getD 0 ≤ (arrayIndex? b.1).getD 0

instance : DecidableRel (indexLe (ν := ν)) := fun _ _ => inferInstanceAs (Decidable (_ ≤ _))

/-- `Object.entries`. -/
def entries (o : PlainObject ν) : List (Str × ν) :=
  (o.props.entries.filter fun e => (arrayIndex? e.1).isSome).insertionSort indexLe ++
    o.props.entries.filter fun e => !(arrayIndex? e.1).isSome

theorem entries_perm (o : PlainObject ν) : o.entries.Perm o.props.entries :=
  ((List.perm_insertionSort _ _).append_right _).trans (List.filter_append_perm ..)

@[simp] theorem get?_empty (k : Str) : (empty : PlainObject ν).get? k = none := rfl

@[simp] theorem entries_empty : (empty : PlainObject ν).entries = [] := rfl

theorem get?_assign (o : PlainObject ν) (k j : Str) (v : ν) :
    (o.assign k v).get? j = if j = k ∧ k ≠ protoKey then some v else o.get? j := by
  unfold assign
  by_cases hk : k = protoKey
  · simp [hk]
  · rw [if_neg hk]
    show (o.props.set k v).get? j = _
    rw [OrdMap.get?_set]
    simp [hk, get?]

theorem mem_entries {o : PlainObject ν} {k : Str} {v : ν} :
    (k, v) ∈ o.entries ↔ o.get? k = some v :=
  o.entries_perm.mem_iff.trans OrdMap.mem_entries_iff

theorem nodup_entries (o : PlainObject ν) : (o.entries.map Prod.fst).Nodup :=
  ((o.entries_perm.map Prod.fst).nodup_iff).mpr o.props.nodup

/-! ## Objects built by assigning a list of pairs -/

/-- Assign every pair in turn. -/
def assignAll (o : PlainObject ν) (l : List (Str × ν)) : PlainObject ν :=
  l.foldl (fun o e => o.assign e.1 e.2) o

theorem get?_assignAll (l : List (Str × ν)) : ∀ {o : PlainObject ν} {k : Str},
    (l.map Prod.fst).Nodup →
      (o.assignAll l).get? k =
        if k = protoKey then o.get? k else ((l.lookup k).or (o.get? k)) := by
  induction l with
  | nil => intro o k _; simp [assignAll]
  | cons e l ih =>
    obtain ⟨j, v⟩ := e
    intro o k hn
    obtain ⟨hj, hl⟩ := List.nodup_cons.mp hn
    show ((o.assign j v).assignAll l).get? k = _
    rw [ih hl, get?_assign, List.lookup_cons]
    by_cases hp : k = protoKey
    · rw [if_pos hp, if_pos hp, if_neg]
      rintro ⟨rfl, h⟩
      exact h hp
    · rw [if_neg hp, if_neg hp]
      by_cases hk : k = j
      · subst hk
        have hnone : l.lookup k = none := List.lookup_eq_none_iff.mpr fun x hx => by
          rw [bne_iff_ne]
          exact fun e => hj (List.mem_map.mpr ⟨x, hx, e.symm⟩)
        simp [hp, hnone]
      · simp [hk, beq_eq_false_iff_ne.mpr hk]

end PlainObject
