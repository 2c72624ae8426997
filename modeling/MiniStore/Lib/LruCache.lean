import Mathlib.Data.List.Nodup
import Mathlib.Data.List.Perm.Subperm

/-!
# Bounded maps with least-recently-used eviction

`LruCache κ ν` is a partial map together with the order in which its keys were
last used, most recent first. `commit` is everything an operation on one key can
do to it: nothing, a use, a write, a removal; a write of a new key at capacity
drops the last key of the order. `WF` says that the order lists exactly the keys
of the map, each once, and no more than the capacity.

Below the capacity a commit acts on the cell of its key alone (`cell_commit_of_room`).
-/

@[ext] structure LruCache (κ ν : Type) where
  cell : κ → Option ν
  order : List κ

namespace LruCache

variable {κ ν : Type}

/-- What an operation does to its key. -/
inductive Action (ν : Type) where
  | keep
  | touch
  | put (value : ν)
  | remove

def Action.onCell : Action ν → Option ν → Option ν
  | keep, c => c
  | touch, c => c
  | put v, _ => some v
  | remove, _ => none

def empty : LruCache κ ν := ⟨fun _ => none, []⟩

variable [DecidableEq κ]

def touch (c : LruCache κ ν) (k : κ) : LruCache κ ν := { c with order := k :: c.order.erase k }

def remove (c : LruCache κ ν) (k : κ) : LruCache κ ν :=
  ⟨Function.update c.cell k none, c.order.erase k⟩

/-- The key a write of `k` evicts. -/
def victim (cap : Nat) (c : LruCache κ ν) (k : κ) : Option κ :=
  if k ∈ c.order ∨ c.order.length < cap then none else c.order.getLast?

def makeRoom (cap : Nat) (c : LruCache κ ν) (k : κ) : LruCache κ ν :=
  match c.victim cap k with
  | none => c
  | some v => c.remove v

def put (cap : Nat) (c : LruCache κ ν) (k : κ) (v : ν) : LruCache κ ν :=
  ⟨Function.update (c.makeRoom cap k).cell k (some v), k :: (c.makeRoom cap k).order.erase k⟩

def commit (cap : Nat) (c : LruCache κ ν) (k : κ) : Action ν → LruCache κ ν
  | .keep => c
  | .touch => c.touch k
  | .put v => c.put cap k v
  | .remove => c.remove k

omit [DecidableEq κ] in
/-- The order lists the keys of the map, each once, within the capacity. -/
structure WF (cap : Nat) (c : LruCache κ ν) : Prop where
  nodup : c.order.Nodup
  mem : ∀ k, k ∈ c.order ↔ c.cell k ≠ none
  le : c.order.length ≤ cap

/-- The action makes sense for the cell: only a present key is used or removed. -/
def Action.Fits : Action ν → Option ν → Prop
  | keep, _ => True
  | touch, c => c ≠ none
  | put _, _ => True
  | remove, c => c ≠ none

/-! ## The invariant -/

@[simp] theorem cell_touch (c : LruCache κ ν) (k : κ) : (c.touch k).cell = c.cell := rfl

theorem cell_remove (c : LruCache κ ν) (k j : κ) :
    (c.remove k).cell j = if j = k then none else c.cell j := Function.update_apply ..

theorem cell_put (cap : Nat) (c : LruCache κ ν) (k j : κ) (v : ν) :
    (c.put cap k v).cell j = if j = k then some v else (c.makeRoom cap k).cell j :=
  Function.update_apply ..

omit [DecidableEq κ] in
theorem wf_empty (cap : Nat) : (empty : LruCache κ ν).WF cap :=
  ⟨List.nodup_nil, fun k => by simp [empty], Nat.zero_le _⟩

theorem WF.touch {cap : Nat} {c : LruCache κ ν} (h : c.WF cap) {k : κ} (hk : c.cell k ≠ none) :
    (c.touch k).WF cap := by
  have hm := (h.mem k).mpr hk
  refine ⟨List.nodup_cons.mpr ⟨h.nodup.not_mem_erase, h.nodup.erase k⟩, fun j => ?_, ?_⟩
  · rw [LruCache.touch, List.mem_cons, h.nodup.mem_erase_iff, h.mem]
    by_cases hj : j = k <;> simp [hj, hk]
  · have := List.length_pos_of_mem hm
    rw [LruCache.touch, List.length_cons, List.length_erase_of_mem hm]
    have := h.le
    omega

theorem WF.remove {cap : Nat} {c : LruCache κ ν} (h : c.WF cap) (k : κ) : (c.remove k).WF cap := by
  refine ⟨h.nodup.erase k, fun j => ?_, Nat.le_trans List.length_erase_le h.le⟩
  rw [cell_remove, LruCache.remove, h.nodup.mem_erase_iff, h.mem]
  by_cases hj : j = k <;> simp [hj]

theorem victim_mem {cap : Nat} {c : LruCache κ ν} {k v : κ} (h : c.victim cap k = some v) :
    v ∈ c.order ∧ k ∉ c.order ∧ cap ≤ c.order.length := by
  unfold victim at h
  split at h
  · cases h
  · next hn =>
    rw [not_or, Nat.not_lt] at hn
    exact ⟨List.mem_of_getLast? h, hn.1, hn.2⟩

theorem victim_eq_none {cap : Nat} (hc : 1 ≤ cap) {c : LruCache κ ν} {k : κ} :
    c.victim cap k = none ↔ k ∈ c.order ∨ c.order.length < cap := by
  unfold victim
  split
  · next h => simp [h]
  · next h =>
    rw [not_or, Nat.not_lt] at h
    have hne : c.order ≠ [] := fun e => by rw [e] at h; simp at h; omega
    simp [h, hne]

theorem WF.makeRoom {cap : Nat} {c : LruCache κ ν} (h : c.WF cap) (hc : 1 ≤ cap) (k : κ) :
    (c.makeRoom cap k).WF cap ∧
      (k ∈ (c.makeRoom cap k).order ∨ (c.makeRoom cap k).order.length < cap) := by
  unfold LruCache.makeRoom
  split
  · next hv => exact ⟨h, (victim_eq_none hc).mp hv⟩
  · next v hv =>
    obtain ⟨hm, -, -⟩ := victim_mem hv
    refine ⟨h.remove v, .inr ?_⟩
    have := List.length_pos_of_mem hm
    rw [LruCache.remove, List.length_erase_of_mem hm]
    have := h.le
    omega

theorem WF.put {cap : Nat} {c : LruCache κ ν} (h : c.WF cap) (hc : 1 ≤ cap) (k : κ) (v : ν) :
    (c.put cap k v).WF cap := by
  obtain ⟨h', hroom⟩ := h.makeRoom hc k
  refine ⟨List.nodup_cons.mpr ⟨h'.nodup.not_mem_erase, h'.nodup.erase k⟩, fun j => ?_, ?_⟩
  · rw [cell_put, LruCache.put, List.mem_cons, h'.nodup.mem_erase_iff, h'.mem]
    by_cases hj : j = k <;> simp [hj]
  · rw [LruCache.put, List.length_cons, List.length_erase]
    have := h'.le
    rcases hroom with hm | hlt
    · rw [if_pos hm]
      have := List.length_pos_of_mem hm
      omega
    · split <;> omega

theorem WF.commit {cap : Nat} {c : LruCache κ ν} (h : c.WF cap) (hc : 1 ≤ cap) {k : κ}
    {a : Action ν} (ha : a.Fits (c.cell k)) : (c.commit cap k a).WF cap := by
  cases a with
  | keep => exact h
  | touch => exact h.touch ha
  | put v => exact h.put hc k v
  | remove => exact h.remove k

/-! ## Cells -/

/-- A write leaves every other key alone, its victim apart. -/
theorem cell_put_other {cap : Nat} {c : LruCache κ ν} {k j : κ} (v : ν) (hj : j ≠ k) :
    (c.put cap k v).cell j = if c.victim cap k = some j then none else c.cell j := by
  rw [cell_put, if_neg hj, makeRoom]
  split
  · next hv => rw [hv]; simp
  · next u hv =>
    rw [cell_remove, hv]
    by_cases e : j = u
    · simp [e]
    · simp [e, Ne.symm e]

/-- With the key present or a slot free, a commit changes the cell of its key only. -/
theorem cell_commit_of_room {cap : Nat} {c : LruCache κ ν} {k : κ}
    (hroom : k ∈ c.order ∨ c.order.length < cap) (a : Action ν) :
    (c.commit cap k a).cell = Function.update c.cell k (a.onCell (c.cell k)) := by
  have hv : c.victim cap k = none := if_pos hroom
  cases a with
  | keep => exact (Function.update_eq_self k c.cell).symm
  | touch => exact (Function.update_eq_self k c.cell).symm
  | put v => show Function.update (c.makeRoom cap k).cell k _ = _; rw [makeRoom, hv]; rfl
  | remove => rfl

theorem cell_commit_self {cap : Nat} {c : LruCache κ ν} {k : κ} (a : Action ν) :
    (c.commit cap k a).cell k = a.onCell (c.cell k) := by
  cases a with
  | keep => rfl
  | touch => rfl
  | put v => exact Function.update_self ..
  | remove => exact Function.update_self ..

theorem cell_commit_other {cap : Nat} {c : LruCache κ ν} {k j : κ} (hj : j ≠ k) (a : Action ν) :
    (c.commit cap k a).cell j = c.cell j ∨
      ((∃ v, a = .put v) ∧ c.victim cap k = some j ∧ (c.commit cap k a).cell j = none) := by
  cases a with
  | keep => exact .inl rfl
  | touch => exact .inl rfl
  | put v =>
    show (c.put cap k v).cell j = c.cell j ∨ _ ∧ _ ∧ (c.put cap k v).cell j = none
    rw [cell_put_other v hj]
    by_cases hv : c.victim cap k = some j
    · exact .inr ⟨⟨v, rfl⟩, hv, if_pos hv⟩
    · exact .inl (if_neg hv)
  | remove => exact .inl ((cell_remove ..).trans (if_neg hj))

/-! ## Sizes -/

omit [DecidableEq κ] in
theorem WF.length_eq {cap cap' : Nat} {c c' : LruCache κ ν} (h : c.WF cap) (h' : c'.WF cap')
    (hc : ∀ k, c.cell k = none ↔ c'.cell k = none) : c.order.length = c'.order.length := by
  refine ((List.perm_ext_iff_of_nodup h.nodup h'.nodup).mpr fun k => ?_).length_eq
  rw [h.mem, h'.mem, ne_eq, ne_eq, hc]

omit [DecidableEq κ] in
theorem WF.length_le_of_subset {cap : Nat} {c : LruCache κ ν} (h : c.WF cap) {l : List κ}
    (hl : ∀ k, c.cell k ≠ none → k ∈ l) : c.order.length ≤ l.length :=
  (List.subperm_of_subset h.nodup fun k hk => hl k ((h.mem k).mp hk)).length_le

/-! ## Caches that answer alike -/

/-- Caches with the same cells evict the same key if they agree about the last of
their orders when it matters. -/
theorem WF.victim_congr {cap : Nat} {c c' : LruCache κ ν} (h : c.WF cap) (h' : c'.WF cap)
    (hc : c.cell = c'.cell) {k : κ}
    (hl : c.cell k = none → cap ≤ c.order.length → c.order.getLast? = c'.order.getLast?) :
    c.victim cap k = c'.victim cap k := by
  have hmem : k ∈ c.order ↔ k ∈ c'.order := by rw [h.mem, h'.mem, hc]
  have hlen : c.order.length = c'.order.length := h.length_eq h' fun j => by rw [hc]
  unfold victim
  by_cases hroom : k ∈ c.order ∨ c.order.length < cap
  · rw [if_pos hroom, if_pos (by rwa [hmem, hlen] at hroom)]
  · rw [if_neg hroom, if_neg (by rwa [hmem, hlen] at hroom)]
    rw [not_or, Nat.not_lt] at hroom
    refine hl ?_ hroom.2
    by_contra hk
    exact hroom.1 ((h.mem k).mpr hk)

theorem cell_commit_congr {cap : Nat} {c c' : LruCache κ ν} (hc : c.cell = c'.cell) {k : κ}
    {a : Action ν} (hv : (∃ v, a = .put v) → c.victim cap k = c'.victim cap k) :
    (c.commit cap k a).cell = (c'.commit cap k a).cell := by
  cases a with
  | keep => exact hc
  | touch => exact hc
  | put v =>
    funext j
    by_cases hj : j = k
    · subst hj
      exact (cell_commit_self (.put v)).trans (cell_commit_self (c := c') (.put v)).symm
    · exact (cell_put_other v hj).trans (by rw [hv ⟨v, rfl⟩, hc]; exact (cell_put_other v hj).symm)
  | remove => funext j; exact (cell_remove ..).trans (by rw [hc]; exact (cell_remove ..).symm)

/-! ## Caches that are written and never read -/

omit [DecidableEq κ] in
/-- The order is that of `written`, which lists the keys by their last write. -/
def OrderedBy (written : List κ) (c : LruCache κ ν) : Prop :=
  c.order = written.filter fun k => (c.cell k).isSome

section

variable {written : List κ} {c : LruCache κ ν} (hw : written.Nodup) (h : c.OrderedBy written)

include hw h

theorem OrderedBy.remove (k : κ) : (c.remove k).OrderedBy written := by
  unfold OrderedBy at *
  rw [LruCache.remove, h, (hw.filter _).erase_eq_filter, List.filter_filter]
  refine List.filter_congr fun j _ => ?_
  by_cases e : j = k <;> simp [e]

theorem OrderedBy.makeRoom (cap : Nat) (k : κ) : (c.makeRoom cap k).OrderedBy written := by
  unfold LruCache.makeRoom
  split
  · exact h
  · exact h.remove hw _

theorem OrderedBy.put (cap : Nat) (k : κ) (v : ν) :
    (c.put cap k v).OrderedBy (k :: written.erase k) := by
  have hm := h.makeRoom hw cap k
  unfold OrderedBy at *
  have hself : ((c.put cap k v).cell k).isSome = true := by simp [cell_put]
  have horder : (c.put cap k v).order = k :: (c.makeRoom cap k).order.erase k := rfl
  have hp := List.filter_cons_of_pos (p := fun j => ((c.put cap k v).cell j).isSome)
    (l := written.erase k) hself
  rw [hp, horder, hm, hw.erase_eq_filter, (hw.filter _).erase_eq_filter, List.filter_filter,
    List.filter_filter]
  refine congrArg (k :: ·) (List.filter_congr fun j _ => ?_)
  rw [Bool.and_comm]
  by_cases e : j = k <;> simp [cell_put, e]

end

/-! ## The old end of the order -/

/-- The action moves its key to the front. -/
def Action.Uses : Action ν → Prop
  | touch | put _ => True
  | _ => False

omit [DecidableEq κ] in
/-- An action that does not move its key keeps its cell or empties it. -/
theorem Action.uses_or (a : Action ν) (c : Option ν) :
    a.Uses ∨ a.onCell c = c ∨ a.onCell c = none := by
  cases a with
  | keep => exact .inr (.inl rfl)
  | touch => exact .inl trivial
  | put v => exact .inl trivial
  | remove => exact .inr (.inr rfl)

theorem victim_mem_old {cap : Nat} {c : LruCache κ ν} {k v : κ} {new old : List κ}
    (ho : c.order = new ++ old) (hne : old ≠ []) (hv : c.victim cap k = some v) : v ∈ old := by
  unfold victim at hv
  split at hv
  · cases hv
  · rw [ho, List.getLast?_append_of_ne_nil _ hne] at hv
    exact List.mem_of_getLast? hv

theorem order_makeRoom {cap : Nat} {c : LruCache κ ν} (hn : c.order.Nodup) (k : κ) :
    ∃ p, (c.makeRoom cap k).order = c.order.filter p := by
  unfold makeRoom
  split
  · exact ⟨fun _ => true, (List.filter_eq_self.mpr fun _ _ => rfl).symm⟩
  · exact ⟨_, hn.erase_eq_filter _⟩

/-- A commit splits the order where it was split: only its own key joins the new ones,
and it leaves the old ones unless it is kept. -/
theorem order_commit_split {cap : Nat} {c : LruCache κ ν} {k : κ} {new old : List κ}
    (hn : c.order.Nodup) (ho : c.order = new ++ old) (a : Action ν) :
    ∃ new' old', (c.commit cap k a).order = new' ++ old' ∧
      (∀ j ∈ new', j = k ∧ a.Uses ∨ j ∈ new) ∧ ∀ j ∈ old', j ∈ old ∧ (j = k → a = .keep) := by
  have hfront : ∀ p, k :: (c.order.filter p).erase k =
      (k :: (new.filter p).filter (· != k)) ++ (old.filter p).filter (· != k) := fun p => by
    rw [(hn.filter p).erase_eq_filter, ho, List.filter_append, List.filter_append]
    rfl
  have hnew : ∀ p, ∀ j ∈ k :: (new.filter p).filter (· != k), j = k ∨ j ∈ new := by
    intro p j hj
    refine (List.mem_cons.mp hj).imp_right fun hj => ?_
    exact (List.mem_filter.mp (List.mem_filter.mp hj).1).1
  have hold : ∀ p, ∀ j ∈ (old.filter p).filter (· != k), j ∈ old ∧ j ≠ k := by
    intro p j hj
    obtain ⟨hj, hk⟩ := List.mem_filter.mp hj
    exact ⟨(List.mem_filter.mp hj).1, by simpa using hk⟩
  cases a with
  | keep => exact ⟨new, old, ho, fun j hj => .inr hj, fun j hj => ⟨hj, fun _ => rfl⟩⟩
  | touch =>
    have hall : c.order.filter (fun _ => true) = c.order := List.filter_eq_self.mpr fun _ _ => rfl
    refine ⟨_, _, (by rw [← hfront fun _ => true, hall]; rfl), fun j hj => ?_, fun j hj => ?_⟩
    · exact (hnew _ j hj).imp_left fun e => ⟨e, trivial⟩
    · exact ⟨(hold _ j hj).1, fun e => absurd e (hold _ j hj).2⟩
  | put v =>
    obtain ⟨p, hp⟩ : ∃ p, (c.makeRoom cap k).order = c.order.filter p := order_makeRoom hn k
    refine ⟨_, _, (by rw [← hfront p, ← hp]; rfl), fun j hj => ?_, fun j hj => ?_⟩
    · exact (hnew _ j hj).imp_left fun e => ⟨e, trivial⟩
    · exact ⟨(hold _ j hj).1, fun e => absurd e (hold _ j hj).2⟩
  | remove =>
    refine ⟨new.filter (· != k), old.filter (· != k), ?_, fun j hj => ?_, fun j hj => ?_⟩
    · show c.order.erase k = _
      rw [hn.erase_eq_filter, ho, List.filter_append]
    · exact .inr (List.mem_filter.mp hj).1
    · obtain ⟨hj, hk⟩ := List.mem_filter.mp hj
      exact ⟨hj, fun e => absurd e (by simpa using hk)⟩

/-! ## Ranks -/

def evicted (cap : Nat) (c : LruCache κ ν) (k : κ) : Action ν → Option κ
  | .put _ => c.victim cap k
  | _ => none

omit [DecidableEq κ] in
/-- The ranks fall along the order. -/
def Ranked (rank : κ → Nat) (c : LruCache κ ν) : Prop := c.order.Pairwise fun a b => rank b < rank a

theorem evicted_eq {cap : Nat} {c : LruCache κ ν} {k v : κ} {a : Action ν}
    (h : c.evicted cap k a = some v) : (∃ x, a = .put x) ∧ c.victim cap k = some v := by
  cases a with
  | put x => exact ⟨⟨x, rfl⟩, h⟩
  | _ => cases h

theorem cell_commit_ne {cap : Nat} {c : LruCache κ ν} {k j : κ} (hj : j ≠ k) {a : Action ν} :
    (c.commit cap k a).cell j = if c.evicted cap k a = some j then none else c.cell j := by
  cases a with
  | keep => rfl
  | touch => rfl
  | put v => exact cell_put_other v hj
  | remove => exact (cell_remove ..).trans (if_neg hj)

theorem isSome_evicted {cap : Nat} (hc : 1 ≤ cap) {c : LruCache κ ν} (h : c.WF cap) {k : κ}
    {a : Action ν} (ha : a.Fits (c.cell k)) : (c.evicted cap k a).isSome = true ↔
      c.cell k = none ∧ (c.commit cap k a).cell k ≠ none ∧ c.order.length = cap := by
  have hle := h.le
  have hmem := h.mem k
  rw [cell_commit_self]
  cases a with
  | keep => exact ⟨fun h => absurd h Bool.false_ne_true, fun h => absurd h.1 h.2.1⟩
  | touch => exact ⟨fun h => absurd h Bool.false_ne_true, fun h => absurd h.1 ha⟩
  | remove => exact ⟨fun h => absurd h Bool.false_ne_true, fun h => absurd rfl h.2.1⟩
  | put v =>
    have hsome : (c.evicted cap k (.put v)).isSome = true ↔ ¬c.victim cap k = none :=
      Option.isSome_iff_ne_none
    rw [hsome, victim_eq_none hc, not_or, Nat.not_lt, hmem, not_not]
    refine and_congr_right fun _ => ⟨fun hl => ⟨Option.some_ne_none v, ?_⟩, fun hl => ?_⟩
    · omega
    · exact Nat.le_of_eq hl.2.symm

theorem cell_commit_eq {cap : Nat} {c : LruCache κ ν} {k j : κ} (hj : j ≠ k) (a : Action ν) :
    (c.commit cap k a).cell j = if c.evicted cap k a = some j then none else c.cell j := by
  cases a with
  | keep => exact (if_neg (by simp [evicted])).symm
  | touch => exact (if_neg (by simp [evicted])).symm
  | put v => exact cell_put_other v hj
  | remove =>
    rw [if_neg (by simp [evicted])]
    exact (cell_remove ..).trans (if_neg hj)

theorem order_commit_filter {cap : Nat} {c : LruCache κ ν} (hn : c.order.Nodup) (k : κ)
    (a : Action ν) : (c.commit cap k a).order.filter (fun j => decide (j ≠ k)) =
      c.order.filter fun j => decide (j ≠ k ∧ c.evicted cap k a ≠ some j) := by
  have herase : ∀ {l : List κ}, l.Nodup →
      (l.erase k).filter (fun j => decide (j ≠ k)) = l.filter fun j => decide (j ≠ k) := by
    intro l hl
    rw [hl.erase_eq_filter, List.filter_filter]
    refine List.filter_congr fun j _ => ?_
    by_cases e : j = k <;> simp [e]
  have hfront : ∀ {l : List κ}, l.Nodup →
      (k :: l.erase k).filter (fun j => decide (j ≠ k)) = l.filter fun j => decide (j ≠ k) :=
    fun hl => (List.filter_cons_of_neg (by simp)).trans (herase hl)
  cases a with
  | keep => exact List.filter_congr fun j _ => by simp [evicted]
  | touch => exact (hfront hn).trans (List.filter_congr fun j _ => by simp [evicted])
  | remove => exact (herase hn).trans (List.filter_congr fun j _ => by simp [evicted])
  | put v =>
    show (k :: (c.makeRoom cap k).order.erase k).filter _ = c.order.filter _
    cases hv : c.victim cap k with
    | none =>
      have hm : c.makeRoom cap k = c := by rw [makeRoom, hv]
      rw [hm, hfront hn]
      exact List.filter_congr fun j _ => by simp [evicted, hv]
    | some u =>
      have hm : (c.makeRoom cap k).order = c.order.erase u := by rw [makeRoom, hv]; rfl
      rw [hm, hfront (hn.erase u), hn.erase_eq_filter, List.filter_filter]
      refine List.filter_congr fun j _ => ?_
      by_cases e : j = u
      · simp [evicted, hv, e]
      · simp [evicted, hv, e, Ne.symm e]

/-- Of a ranked cache, the victim has the lowest rank. -/
theorem Ranked.victim {rank : κ → Nat} {cap : Nat} {c : LruCache κ ν} (h : c.Ranked rank)
    {k v : κ} (hv : c.victim cap k = some v) {j : κ} (hj : j ∈ c.order) (hne : j ≠ v) :
    rank v < rank j := by
  unfold LruCache.victim at hv
  split at hv
  · cases hv
  · obtain ⟨l, hl⟩ := List.getLast?_eq_some_iff.mp hv
    rw [Ranked, hl] at h
    rw [hl] at hj
    have hjl : j ∈ l := (List.mem_append.mp hj).resolve_right (by simpa using hne)
    exact (List.pairwise_append.mp h).2.2 j hjl v (List.mem_singleton.mpr rfl)

/-- A use gives its key the highest rank; every other action leaves the ranks alone. -/
theorem Ranked.commit {rank rank' : κ → Nat} {cap : Nat} {c : LruCache κ ν} (h : c.Ranked rank)
    (hn : c.order.Nodup) {k : κ} {a : Action ν} (hother : ∀ j, j ≠ k → rank' j = rank j)
    (hkeep : a = .keep → rank' k = rank k) (huse : a.Uses → ∀ j, j ≠ k → rank j < rank' k) :
    (c.commit cap k a).Ranked rank' := by
  have hrest : ∀ l : List κ, l.Sublist c.order → k ∉ l → l.Pairwise fun a b => rank' b < rank' a := by
    intro l hl hk
    refine (h.sublist hl).imp_of_mem fun {a b} ha hb hab => ?_
    rwa [hother a fun e => hk (e ▸ ha), hother b fun e => hk (e ▸ hb)]
  have hfront : a.Uses → ∀ l : List κ, l.Sublist c.order →
      (k :: l.erase k).Pairwise fun a b => rank' b < rank' a := by
    intro hu l hl
    have hk : k ∉ l.erase k := (hn.sublist hl).not_mem_erase
    refine List.pairwise_cons.mpr ⟨fun j hj => ?_, hrest _ (List.erase_sublist.trans hl) hk⟩
    have hj : j ≠ k := fun e => hk (e ▸ hj)
    rw [hother j hj]
    exact huse hu j hj
  cases a with
  | keep =>
    have hrank : ∀ j, rank' j = rank j := fun j => by
      by_cases e : j = k
      · rw [e, hkeep rfl]
      · exact hother j e
    exact h.imp fun hab => by rwa [hrank, hrank]
  | touch => exact hfront trivial _ (List.Sublist.refl _)
  | put v =>
    obtain ⟨p, hp⟩ : ∃ p, (c.makeRoom cap k).order = c.order.filter p := order_makeRoom hn k
    exact hfront trivial _ (hp ▸ List.filter_sublist)
  | remove => exact hrest _ List.erase_sublist hn.not_mem_erase

end LruCache
