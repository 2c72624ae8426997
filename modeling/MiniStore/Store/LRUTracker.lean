import MiniStore.Lib.OrdMap
import MiniStore.Lib.DLinked
import MiniStore.Lib.Text

/-!
# LRUTracker

A map from key to list node and a doubly linked list of the nodes, most
recently used first. `LRUTracker.Raw` holds the data of the class (`#nodes`,
`#head`, `#tail` and the nodes reachable from them); its operations follow
`touch`, `delete`, `peekLRU`, `evictLRU` and `keysMRU`. `Raw.WF` says the list
is well linked and carries exactly the mapped keys, one node each, and
`LRUTracker` is a raw tracker with that proof.

`order` is the key list from most to least recently used. The rest of the
development knows the tracker through `order_touch`, `order_delete` and
`peekLRU_eq` only.
-/

namespace MiniStore

namespace LRUTracker

/-- The fields of the class. A node is an address in `list.heap`. -/
structure Raw where
  nodes : OrdMap Str Nat
  list : DLinked Str
  deriving DecidableEq

namespace Raw

def empty : Raw := ⟨OrdMap.empty, DLinked.empty⟩

def size (t : Raw) : Nat := t.nodes.size

def has (t : Raw) (key : Str) : Bool := t.nodes.has key

def touch (t : Raw) (key : Str) : Raw :=
  match t.nodes.get? key with
  | some existing =>
    if t.list.head = some existing then t -- already MRU, nothing to move
    else { t with list := (t.list.unlink existing).pushFront existing }
  | none =>
    let node := t.list.heap.length
    { nodes := t.nodes.set key node, list := (t.list.alloc key).pushFront node }

def delete (t : Raw) (key : Str) : Raw × Bool :=
  match t.nodes.get? key with
  | none => (t, false)
  | some node => ({ nodes := t.nodes.delete key, list := t.list.unlink node }, true)

def peekLRU (t : Raw) : Option Str := t.list.tail.bind t.list.itemAt

def evictLRU (t : Raw) : Raw × Option Str :=
  match t.list.tail with
  | none => (t, none)
  | some victim =>
    match t.list.itemAt victim with
    | none => (t, none)
    | some key => ({ nodes := t.nodes.delete key, list := t.list.unlink victim }, some key)

/-- Keys in MRU to LRU order: `next` pointers followed from `#head`. -/
def keysMRU (t : Raw) : List Str :=
  (DLinked.walk t.list.heap t.list.heap.length t.list.head).filterMap t.list.itemAt

/-- The list threads the addresses `as`, and `#nodes` maps exactly their keys to them. -/
structure Threads (t : Raw) (as : List Nat) : Prop where
  rep : t.list.Rep as
  nodes : ∀ k a, t.nodes.get? k = some a ↔ a ∈ as ∧ t.list.itemAt a = some k

def WF (t : Raw) : Prop := ∃ as, t.Threads as

/-! ## What the operations do to the threaded addresses -/

theorem keysMRU_eq {t : Raw} {as : List Nat} (h : t.Threads as) :
    t.keysMRU = as.filterMap t.list.itemAt := by
  rw [keysMRU, h.rep.walk]

theorem threads_empty : empty.Threads [] where
  rep := DLinked.rep_empty
  nodes := fun k a => by simp [empty]

theorem Threads.split {t : Raw} {as : List Nat} (h : t.Threads as) {k : Str} {a : Nat}
    (hk : t.nodes.get? k = some a) : ∃ l r, as = l ++ a :: r ∧
      t.keysMRU = l.filterMap t.list.itemAt ++ k :: r.filterMap t.list.itemAt ∧
      k ∉ l.filterMap t.list.itemAt ∧ k ∉ r.filterMap t.list.itemAt := by
  obtain ⟨ha, hi⟩ := (h.nodes k a).mp hk
  obtain ⟨l, r, rfl⟩ := List.append_of_mem ha
  have hnd := List.nodup_append.mp h.rep.nodup
  have only : ∀ b ∈ l ++ a :: r, t.list.itemAt b = some k → b = a := fun b hb hbk => by
    have := (h.nodes k b).mpr ⟨hb, hbk⟩
    rw [hk] at this
    exact (Option.some.inj this).symm
  refine ⟨l, r, rfl, by simp [keysMRU_eq h, hi], fun hm => ?_, fun hm => ?_⟩
  · obtain ⟨b, hb, hbk⟩ := List.mem_filterMap.mp hm
    obtain rfl := only b (by simp [hb]) hbk
    exact hnd.2.2 b hb b List.mem_cons_self rfl
  · obtain ⟨b, hb, hbk⟩ := List.mem_filterMap.mp hm
    obtain rfl := only b (by simp [hb]) hbk
    exact (List.nodup_cons.mp hnd.2.1).1 hb

theorem Threads.touch_some {t : Raw} {as : List Nat} (h : t.Threads as) {k : Str} {a : Nat}
    (hk : t.nodes.get? k = some a) (hne : t.list.head ≠ some a) :
    (t.touch k).Threads (a :: as.erase a) := by
  obtain ⟨ha, -⟩ := (h.nodes k a).mp hk
  have hb := h.rep.bound a ha
  have e : t.touch k = { t with list := (t.list.unlink a).pushFront a } := by
    simp [touch, hk, hne]
  rw [e]
  refine ⟨(h.rep.unlink_erase ha).pushFront (h.rep.nodup.not_mem_erase) (by simpa using hb), ?_⟩
  intro k' b
  rw [DLinked.itemAt_pushFront, DLinked.itemAt_unlink, h.nodes, List.mem_cons,
    h.rep.nodup.mem_erase_iff]
  by_cases hba : b = a
  · subst hba; simp [ha]
  · simp [hba]

theorem Threads.touch_none {t : Raw} {as : List Nat} (h : t.Threads as) {k : Str}
    (hk : t.nodes.get? k = none) : (t.touch k).Threads (t.list.heap.length :: as) := by
  have hnew : t.list.heap.length ∉ as := fun hm => Nat.lt_irrefl _ (h.rep.bound _ hm)
  have e : t.touch k = ⟨t.nodes.set k t.list.heap.length,
      (t.list.alloc k).pushFront t.list.heap.length⟩ := by simp [touch, hk]
  rw [e]
  refine ⟨(h.rep.alloc k).pushFront hnew (by simp), ?_⟩
  intro k' b
  rw [DLinked.itemAt_pushFront, OrdMap.get?_set, List.mem_cons]
  by_cases hb : b = t.list.heap.length
  · subst hb
    rw [DLinked.itemAt_alloc_new]
    by_cases hk' : k' = k
    · simp [hk']
    · have : ∀ a, t.nodes.get? k' = some a → a ≠ t.list.heap.length := fun a ha e =>
        hnew (e ▸ ((h.nodes k' a).mp ha).1)
      simpa [hk', Ne.symm hk'] using fun e => this _ e rfl
  · by_cases hk' : k' = k
    · subst hk'
      have : ∀ b ∈ as, t.list.itemAt b ≠ some k' := fun b hb hi => by
        have := (h.nodes k' b).mpr ⟨hb, hi⟩
        rw [hk] at this; cases this
      simp only [if_true, Option.some.injEq, hb, Ne.symm hb, false_or, false_iff, not_and]
      exact fun hm => by rw [DLinked.itemAt_alloc_old _ _ (h.rep.bound b hm)]; exact this b hm
    · simp only [hk', if_false, hb, false_or, h.nodes]
      refine and_congr_right fun hm => ?_
      rw [DLinked.itemAt_alloc_old _ _ (h.rep.bound b hm)]

theorem Threads.unlink {t : Raw} {as : List Nat} (h : t.Threads as) {k : Str} {a : Nat}
    (hk : t.nodes.get? k = some a) :
    Threads { nodes := t.nodes.delete k, list := t.list.unlink a } (as.erase a) := by
  obtain ⟨ha, hi⟩ := (h.nodes k a).mp hk
  refine ⟨h.rep.unlink_erase ha, fun k' b => ?_⟩
  rw [DLinked.itemAt_unlink, OrdMap.get?_delete, h.rep.nodup.mem_erase_iff]
  by_cases hk' : k' = k
  · subst hk'
    simp only [if_true, false_iff, not_and, reduceCtorEq]
    intro hb hbk
    have := (h.nodes k' b).mpr ⟨hb.2, hbk⟩
    rw [hk] at this
    exact hb.1 (Option.some.inj this).symm
  · rw [if_neg hk', h.nodes]
    constructor
    · rintro ⟨hb, hbk⟩
      refine ⟨⟨?_, hb⟩, hbk⟩
      rintro rfl
      rw [hi] at hbk
      exact hk' (Option.some.inj hbk).symm
    · rintro ⟨hb, hbk⟩
      exact ⟨hb.2, hbk⟩

theorem keysMRU_touch {t : Raw} (h : t.WF) (k : Str) :
    (t.touch k).keysMRU = k :: t.keysMRU.erase k := by
  obtain ⟨as, h⟩ := h
  cases hk : t.nodes.get? k with
  | none =>
    rw [keysMRU_eq (h.touch_none hk), keysMRU_eq h]
    have hnot : k ∉ as.filterMap t.list.itemAt := fun hm => by
      obtain ⟨b, hb, hbk⟩ := List.mem_filterMap.mp hm
      have := (h.nodes k b).mpr ⟨hb, hbk⟩
      rw [hk] at this; cases this
    have e : (t.touch k).list = (t.list.alloc k).pushFront t.list.heap.length := by
      simp [touch, hk]
    rw [List.erase_of_not_mem hnot, e]
    simp only [List.filterMap_cons, DLinked.itemAt_pushFront, DLinked.itemAt_alloc_new]
    congr 1
    refine List.filterMap_congr fun b hb => ?_
    exact DLinked.itemAt_alloc_old _ _ (h.rep.bound b hb)
  | some a =>
    obtain ⟨l, r, rfl, hkeys, hl, -⟩ := h.split hk
    by_cases hne : t.list.head = some a
    · have e : t.touch k = t := by simp [touch, hk, hne]
      rw [e, hkeys]
      cases l with
      | nil => simp
      | cons b l =>
        have hb : b = a := by
          have := h.rep.head; rw [hne] at this; simpa [eq_comm] using this
        have := h.rep.nodup
        simp [hb] at this
    · have hal : a ∉ l := fun hm =>
        (List.nodup_append.mp h.rep.nodup).2.2 a hm a List.mem_cons_self rfl
      have e : (t.touch k).list = (t.list.unlink a).pushFront a := by simp [touch, hk, hne]
      have hi := ((h.nodes k a).mp hk).2
      rw [keysMRU_eq (h.touch_some hk hne), hkeys, e, List.erase_append_right _ hal,
        List.erase_append_right _ hl]
      simp [hi]

theorem WF.touch {t : Raw} (h : t.WF) (k : Str) : (t.touch k).WF := by
  obtain ⟨as, h⟩ := h
  cases hk : t.nodes.get? k with
  | none => exact ⟨_, h.touch_none hk⟩
  | some a =>
    by_cases hne : t.list.head = some a
    · exact ⟨as, by simpa [Raw.touch, hk, hne] using h⟩
    · exact ⟨_, h.touch_some hk hne⟩

theorem WF.delete {t : Raw} (h : t.WF) (k : Str) : (t.delete k).1.WF := by
  obtain ⟨as, h⟩ := h
  unfold Raw.delete
  split
  · exact ⟨as, h⟩
  · next a hk => exact ⟨_, h.unlink hk⟩

theorem mem_keysMRU {t : Raw} (h : t.WF) {k : Str} : k ∈ t.keysMRU ↔ t.has k = true := by
  obtain ⟨as, h⟩ := h
  rw [keysMRU_eq h, List.mem_filterMap, Raw.has, OrdMap.has_iff]
  exact exists_congr fun a => (h.nodes k a).symm

theorem nodup_keysMRU {t : Raw} (h : t.WF) : t.keysMRU.Nodup := by
  obtain ⟨as, h⟩ := h
  rw [keysMRU_eq h, List.Nodup, List.pairwise_filterMap]
  refine h.rep.nodup.imp_of_mem fun {a b} ha hb hab k hk k' hk' e => hab ?_
  subst e
  exact Option.some.inj (((h.nodes k a).mpr ⟨ha, hk⟩).symm.trans ((h.nodes k b).mpr ⟨hb, hk'⟩))

theorem keysMRU_delete {t : Raw} (h : t.WF) (k : Str) :
    (t.delete k).1.keysMRU = t.keysMRU.erase k := by
  obtain ⟨as, h⟩ := h
  unfold Raw.delete
  split
  · next hk =>
    rw [List.erase_of_not_mem]
    rw [mem_keysMRU ⟨as, h⟩, Raw.has, OrdMap.has_eq_false_iff.mpr hk]
    simp
  · next a hk =>
    obtain ⟨l, r, rfl, hkeys, hl, -⟩ := h.split hk
    have hal : a ∉ l := fun hm =>
      (List.nodup_append.mp h.rep.nodup).2.2 a hm a List.mem_cons_self rfl
    rw [keysMRU_eq (h.unlink hk), hkeys, List.erase_append_right _ hal,
      List.erase_append_right _ hl]
    simp

theorem delete_answer {t : Raw} (h : t.WF) (k : Str) :
    (t.delete k).2 = decide (k ∈ t.keysMRU) := by
  have hmem := mem_keysMRU h (k := k)
  unfold Raw.delete
  cases hk : t.nodes.get? k with
  | none => simp [hmem, has, OrdMap.has_eq_false_iff.mpr hk]
  | some a => simp [hmem, has, OrdMap.has_of_get? hk]

theorem perm_keysMRU {t : Raw} (h : t.WF) : t.nodes.keys.Perm t.keysMRU :=
  (List.perm_ext_iff_of_nodup (OrdMap.keys_nodup _) (nodup_keysMRU h)).mpr fun k => by
    rw [mem_keysMRU h, OrdMap.mem_keys_iff_has, has]

theorem peekLRU_eq {t : Raw} (h : t.WF) : t.peekLRU = t.keysMRU.getLast? := by
  obtain ⟨as, h⟩ := h
  rw [keysMRU_eq h, peekLRU, h.rep.tail]
  rcases List.eq_nil_or_concat as with rfl | ⟨l, a, rfl⟩
  · rfl
  · have ha : a < t.list.heap.length := h.rep.bound a (by simp)
    simp [DLinked.itemAt_of_lt ha]

theorem evictLRU_none {t : Raw} (h : t.WF) (hl : t.keysMRU.getLast? = none) :
    t.evictLRU = (t, none) := by
  rw [← peekLRU_eq h, peekLRU] at hl
  unfold evictLRU
  cases hv : t.list.tail with
  | none => rfl
  | some victim =>
    have hi : t.list.itemAt victim = none := by simpa [hv] using hl
    simp [hi]

/-- Evicting is deleting the key of the tail. -/
theorem evictLRU_some {t : Raw} (h : t.WF) {key : Str} (hl : t.keysMRU.getLast? = some key) :
    t.evictLRU = ((t.delete key).1, some key) := by
  rw [← peekLRU_eq h, peekLRU, Option.bind_eq_some_iff] at hl
  obtain ⟨victim, hv, hi⟩ := hl
  obtain ⟨as, h⟩ := h
  have hm : victim ∈ as := List.mem_of_getLast? (h.rep.tail ▸ hv)
  simp [evictLRU, Raw.delete, hv, hi, (h.nodes key victim).mpr ⟨hm, hi⟩]

theorem evictLRU_answer {t : Raw} (h : t.WF) : t.evictLRU.2 = t.keysMRU.getLast? := by
  cases hl : t.keysMRU.getLast? with
  | none => rw [evictLRU_none h hl]
  | some key => rw [evictLRU_some h hl]

theorem WF.evictLRU {t : Raw} (h : t.WF) : t.evictLRU.1.WF := by
  cases hl : t.keysMRU.getLast? with
  | none => rwa [evictLRU_none h hl]
  | some key =>
    rw [evictLRU_some h hl]
    exact h.delete key

theorem keysMRU_evictLRU {t : Raw} (h : t.WF) : t.evictLRU.1.keysMRU = t.keysMRU.dropLast := by
  cases hl : t.keysMRU.getLast? with
  | none =>
    have hnil := List.getLast?_eq_none_iff.mp hl
    rw [evictLRU_none h hl]
    show t.keysMRU = _
    rw [hnil, List.dropLast_nil]
  | some key =>
    obtain ⟨front, e⟩ := List.getLast?_eq_some_iff.mp hl
    have hnew : key ∉ front := fun hm =>
      (List.nodup_append.mp (e ▸ nodup_keysMRU h)).2.2 key hm key (List.mem_singleton_self key) rfl
    rw [evictLRU_some h hl]
    show (t.delete key).1.keysMRU = _
    rw [keysMRU_delete h, e, List.erase_append_right _ hnew, List.dropLast_concat,
      List.erase_cons_head, List.append_nil]

end Raw

end LRUTracker

/-- A recency tracker with a well-linked list. -/
structure LRUTracker where
  raw : LRUTracker.Raw
  wf : raw.WF
  deriving DecidableEq

namespace LRUTracker

def empty : LRUTracker := ⟨Raw.empty, [], Raw.threads_empty⟩

def touch (t : LRUTracker) (key : Str) : LRUTracker := ⟨t.raw.touch key, t.wf.touch key⟩

def delete (t : LRUTracker) (key : Str) : LRUTracker := ⟨(t.raw.delete key).1, t.wf.delete key⟩

def peekLRU (t : LRUTracker) : Option Str := t.raw.peekLRU

def has (t : LRUTracker) (key : Str) : Bool := t.raw.has key

/-- The tracked keys, most recently used first. -/
def order (t : LRUTracker) : List Str := t.raw.keysMRU

@[simp] theorem order_empty : empty.order = [] := rfl

theorem nodup_order (t : LRUTracker) : t.order.Nodup := Raw.nodup_keysMRU t.wf

@[simp] theorem order_touch (t : LRUTracker) (k : Str) : (t.touch k).order = k :: t.order.erase k :=
  Raw.keysMRU_touch t.wf k

@[simp] theorem order_delete (t : LRUTracker) (k : Str) : (t.delete k).order = t.order.erase k :=
  Raw.keysMRU_delete t.wf k

theorem peekLRU_eq (t : LRUTracker) : t.peekLRU = t.order.getLast? := Raw.peekLRU_eq t.wf

theorem mem_order {t : LRUTracker} {k : Str} : k ∈ t.order ↔ t.has k = true := Raw.mem_keysMRU t.wf

end LRUTracker

end MiniStore
