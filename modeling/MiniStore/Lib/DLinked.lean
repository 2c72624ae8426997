import Mathlib.Data.List.Induction
import Mathlib.Data.List.Perm.Subperm

/-!
# Doubly linked lists in a heap of nodes

A node is an address into `heap`; `prev` and `next` hold addresses. `pushFront`
and `unlink` are the two textbook edits. `Rep t as` says the list `t` threads
exactly the addresses `as`, head first: at every position both pointers of the
node are its neighbours. Nodes off the list are garbage the edits never read.

* `Rep.pushFront`, `Rep.unlink`: the two edits on the address list;
* `Rep.walk`: following `next` from the head visits `as`;
* `Rep.follows_next`, `Rep.follows_prev`: the two ways through the list, both of which end.
-/

/-- A list node. -/
structure LNode (α : Type) where
  item : α
  prev : Option Nat
  next : Option Nat
  deriving DecidableEq

/-- A heap of nodes with the two ends of one list in it. -/
structure DLinked (α : Type) where
  heap : List (LNode α)
  head : Option Nat
  tail : Option Nat
  deriving DecidableEq

namespace DLinked

variable {α : Type}

def empty : DLinked α := ⟨[], none, none⟩

def setPrev (h : List (LNode α)) (a : Nat) (p : Option Nat) : List (LNode α) :=
  h.modify a fun n => { n with prev := p }

def setNext (h : List (LNode α)) (a : Nat) (p : Option Nat) : List (LNode α) :=
  h.modify a fun n => { n with next := p }

def itemAt (t : DLinked α) (a : Nat) : Option α := (t.heap[a]?).map LNode.item

theorem itemAt_of_lt {t : DLinked α} {a : Nat} (ha : a < t.heap.length) :
    t.itemAt a = some t.heap[a].item := by
  rw [itemAt, List.getElem?_eq_getElem ha]
  rfl

/-- A new node, on no list yet; its address is the old heap size. -/
def alloc (t : DLinked α) (x : α) : DLinked α := { t with heap := t.heap ++ [⟨x, none, none⟩] }

def pushFront (t : DLinked α) (a : Nat) : DLinked α :=
  let h := setNext (setPrev t.heap a none) a t.head
  let h := match t.head with
    | some b => setPrev h b (some a)
    | none => h
  { heap := h, head := some a, tail := t.tail.or (some a) }

def unlink (t : DLinked α) (a : Nat) : DLinked α :=
  match t.heap[a]? with
  | none => t
  | some n =>
    let t := match n.prev with
      | some p => { t with heap := setNext t.heap p n.next }
      | none => { t with head := n.next }
    let t := match n.next with
      | some x => { t with heap := setPrev t.heap x n.prev }
      | none => { t with tail := n.prev }
    { t with heap := setNext (setPrev t.heap a none) a none }

/-- Addresses met by following `next`, at most `fuel` of them. -/
def walk (h : List (LNode α)) : Nat → Option Nat → List Nat
  | 0, _ => []
  | _, none => []
  | n + 1, some a =>
    match h[a]? with
    | none => []
    | some c => a :: walk h n c.next

/-! ## Pointers of one node -/

def nextOf (h : List (LNode α)) (a : Nat) : Option Nat := (h[a]?).bind LNode.next

def prevOf (h : List (LNode α)) (a : Nat) : Option Nat := (h[a]?).bind LNode.prev

@[simp] theorem length_setPrev (h : List (LNode α)) (a : Nat) (p : Option Nat) :
    (setPrev h a p).length = h.length := List.length_modify ..

@[simp] theorem length_setNext (h : List (LNode α)) (a : Nat) (p : Option Nat) :
    (setNext h a p).length = h.length := List.length_modify ..

theorem prevOf_setPrev {h : List (LNode α)} {a : Nat} (p : Option Nat) (b : Nat)
    (ha : a < h.length) : prevOf (setPrev h a p) b = if b = a then p else prevOf h b := by
  unfold prevOf setPrev
  rw [List.getElem?_modify]
  by_cases hb : b = a
  · subst hb; simp [List.getElem?_eq_getElem ha]
  · simp [hb, Ne.symm hb]

theorem nextOf_setNext {h : List (LNode α)} {a : Nat} (p : Option Nat) (b : Nat)
    (ha : a < h.length) : nextOf (setNext h a p) b = if b = a then p else nextOf h b := by
  unfold nextOf setNext
  rw [List.getElem?_modify]
  by_cases hb : b = a
  · subst hb; simp [List.getElem?_eq_getElem ha]
  · simp [hb, Ne.symm hb]

@[simp] theorem nextOf_setPrev (h : List (LNode α)) (a : Nat) (p : Option Nat) (b : Nat) :
    nextOf (setPrev h a p) b = nextOf h b := by
  unfold nextOf setPrev
  rw [List.getElem?_modify]
  cases h[b]? with
  | none => rfl
  | some n => by_cases hb : a = b <;> simp [hb]

@[simp] theorem prevOf_setNext (h : List (LNode α)) (a : Nat) (p : Option Nat) (b : Nat) :
    prevOf (setNext h a p) b = prevOf h b := by
  unfold prevOf setNext
  rw [List.getElem?_modify]
  cases h[b]? with
  | none => rfl
  | some n => by_cases hb : a = b <;> simp [hb]

theorem map_item_modify (h : List (LNode α)) (a b : Nat) (f : LNode α → LNode α)
    (hf : ∀ n, (f n).item = n.item) :
    ((h.modify a f)[b]?).map LNode.item = (h[b]?).map LNode.item := by
  rw [List.getElem?_modify]
  cases h[b]? with
  | none => rfl
  | some n => by_cases hb : a = b <;> simp [hb, hf]

@[simp] theorem item_setPrev (h : List (LNode α)) (a : Nat) (p : Option Nat) (b : Nat) :
    ((setPrev h a p)[b]?).map LNode.item = (h[b]?).map LNode.item :=
  map_item_modify h a b _ fun _ => rfl

@[simp] theorem item_setNext (h : List (LNode α)) (a : Nat) (p : Option Nat) (b : Nat) :
    ((setNext h a p)[b]?).map LNode.item = (h[b]?).map LNode.item :=
  map_item_modify h a b _ fun _ => rfl

/-! ## Edits keep the items and the heap size -/

@[simp] theorem length_heap_pushFront (t : DLinked α) (a : Nat) :
    (t.pushFront a).heap.length = t.heap.length := by
  unfold pushFront; cases t.head <;> simp

@[simp] theorem itemAt_pushFront (t : DLinked α) (a b : Nat) :
    (t.pushFront a).itemAt b = t.itemAt b := by
  unfold pushFront itemAt; cases t.head <;> simp

@[simp] theorem length_heap_unlink (t : DLinked α) (a : Nat) :
    (t.unlink a).heap.length = t.heap.length := by
  unfold unlink
  cases t.heap[a]? with
  | none => rfl
  | some n => obtain ⟨x, _ | p, _ | q⟩ := n <;> simp

@[simp] theorem itemAt_unlink (t : DLinked α) (a b : Nat) :
    (t.unlink a).itemAt b = t.itemAt b := by
  unfold unlink
  cases t.heap[a]? with
  | none => rfl
  | some n => obtain ⟨x, _ | p, _ | q⟩ := n <;> simp [itemAt]

@[simp] theorem length_heap_alloc (t : DLinked α) (x : α) :
    (t.alloc x).heap.length = t.heap.length + 1 := by simp [alloc]

theorem itemAt_alloc_new (t : DLinked α) (x : α) : (t.alloc x).itemAt t.heap.length = some x := by
  simp [alloc, itemAt]

theorem itemAt_alloc_old (t : DLinked α) (x : α) {a : Nat} (ha : a < t.heap.length) :
    (t.alloc x).itemAt a = t.itemAt a := by
  simp [alloc, itemAt, List.getElem?_append_left ha]

/-! ## The list a heap threads -/

/-- `t` threads exactly the addresses `as`, head first. -/
structure Rep (t : DLinked α) (as : List Nat) : Prop where
  nodup : as.Nodup
  head : t.head = as.head?
  tail : t.tail = as.getLast?
  bound : ∀ a ∈ as, a < t.heap.length
  prev : ∀ l a r, as = l ++ a :: r → prevOf t.heap a = l.getLast?
  next : ∀ l a r, as = l ++ a :: r → nextOf t.heap a = r.head?

theorem rep_empty : Rep (empty : DLinked α) [] where
  nodup := List.nodup_nil
  head := rfl
  tail := rfl
  bound := fun _ h => absurd h List.not_mem_nil
  prev := fun l a r h => by simp at h
  next := fun l a r h => by simp at h

theorem Rep.alloc {t : DLinked α} {as : List Nat} (h : Rep t as) (x : α) : Rep (t.alloc x) as where
  nodup := h.nodup
  head := h.head
  tail := h.tail
  bound := fun a ha => by have := h.bound a ha; rw [length_heap_alloc]; omega
  prev := fun l a r e => by
    rw [← h.prev l a r e]
    simp only [prevOf, DLinked.alloc, List.getElem?_append_left (h.bound a (by simp [e]))]
  next := fun l a r e => by
    rw [← h.next l a r e]
    simp only [nextOf, DLinked.alloc, List.getElem?_append_left (h.bound a (by simp [e]))]

theorem prevOf_pushFront {t : DLinked α} {as : List Nat} (h : Rep t as) {a : Nat}
    (ha : a < t.heap.length) (b : Nat) :
    prevOf (t.pushFront a).heap b =
      if as.head? = some b then some a else if b = a then none else prevOf t.heap b := by
  unfold pushFront
  cases has : as with
  | nil =>
    have hh : t.head = none := by rw [h.head, has]; rfl
    simp [hh, prevOf_setPrev none b ha]
  | cons c rest =>
    have hh : t.head = some c := by rw [h.head, has]; rfl
    have hc : c < t.heap.length := h.bound c (by simp [has])
    simp only [hh]
    rw [prevOf_setPrev _ _ (by simpa using hc), prevOf_setNext, prevOf_setPrev none b ha]
    simp [eq_comm]

theorem nextOf_pushFront {t : DLinked α} {a : Nat} (ha : a < t.heap.length) (b : Nat) :
    nextOf (t.pushFront a).heap b = if b = a then t.head else nextOf t.heap b := by
  unfold pushFront
  cases t.head with
  | none => simp only; rw [nextOf_setNext _ _ (by simpa using ha), nextOf_setPrev]
  | some c => simp only; rw [nextOf_setPrev, nextOf_setNext _ _ (by simpa using ha), nextOf_setPrev]

theorem Rep.pushFront {t : DLinked α} {as : List Nat} (h : Rep t as) {a : Nat} (hn : a ∉ as)
    (ha : a < t.heap.length) : Rep (t.pushFront a) (a :: as) where
  nodup := List.nodup_cons.mpr ⟨hn, h.nodup⟩
  head := rfl
  tail := by
    show t.tail.or (some a) = _
    rw [h.tail]
    cases as with
    | nil => rfl
    | cons b rest => simp [List.getLast?_cons]
  bound := fun b hb => by
    rw [length_heap_pushFront]
    rcases List.mem_cons.mp hb with rfl | hb
    · exact ha
    · exact h.bound b hb
  prev := fun l b r e => by
    rw [prevOf_pushFront h ha]
    cases l with
    | nil =>
      simp only [List.nil_append, List.cons.injEq] at e
      obtain ⟨rfl, rfl⟩ := e
      have : as.head? ≠ some a := fun e => hn (List.mem_of_head? e)
      simp [this]
    | cons c l =>
      simp only [List.cons_append, List.cons.injEq] at e
      obtain ⟨rfl, rfl⟩ := e
      have hba : b ≠ a := fun e => hn (by simp [e])
      cases l with
      | nil => simp
      | cons d l =>
        have hdb : d ≠ b := fun e => by
          have := h.nodup; simp [e] at this
        rw [h.prev (d :: l) b r rfl]
        simp [hdb, hba, List.getLast?_cons]
  next := fun l b r e => by
    rw [nextOf_pushFront ha]
    cases l with
    | nil =>
      simp only [List.nil_append, List.cons.injEq] at e
      obtain ⟨rfl, rfl⟩ := e
      rw [if_pos rfl, h.head]
    | cons c l =>
      simp only [List.cons_append, List.cons.injEq] at e
      obtain ⟨rfl, rfl⟩ := e
      rw [if_neg (fun e => hn (by simp [e])), h.next l b r rfl]

/-! ## Unlinking -/

theorem getElem?_of_rep {t : DLinked α} {l r : List Nat} {a : Nat} (h : Rep t (l ++ a :: r)) :
    ∃ n, t.heap[a]? = some n ∧ n.prev = l.getLast? ∧ n.next = r.head? := by
  have hb := h.bound a (by simp)
  refine ⟨t.heap[a], List.getElem?_eq_getElem hb, ?_, ?_⟩
  · have := h.prev l a r rfl
    simpa [prevOf, List.getElem?_eq_getElem hb] using this
  · have := h.next l a r rfl
    simpa [nextOf, List.getElem?_eq_getElem hb] using this

theorem head_unlink {t : DLinked α} {l r : List Nat} {a : Nat} (h : Rep t (l ++ a :: r)) :
    (t.unlink a).head = (l ++ r).head? := by
  obtain ⟨n, hn, hp, hx⟩ := getElem?_of_rep h
  have hh := h.head
  unfold unlink
  rw [hn]
  simp only [hp, hx]
  cases l with
  | nil => cases r <;> simp
  | cons b l =>
    obtain ⟨z, hz⟩ : ∃ z, (b :: l).getLast? = some z := ⟨_, List.getLast?_eq_some_getLast (by simp)⟩
    rw [hz]; cases r <;> simpa using hh

theorem tail_unlink {t : DLinked α} {l r : List Nat} {a : Nat} (h : Rep t (l ++ a :: r)) :
    (t.unlink a).tail = (l ++ r).getLast? := by
  obtain ⟨n, hn, hp, hx⟩ := getElem?_of_rep h
  have ht := h.tail
  unfold unlink
  rw [hn]
  simp only [hp, hx]
  cases r with
  | nil => cases hl : l.getLast? <;> simp [hl]
  | cons b r =>
    have e : (l ++ b :: r).getLast? = t.tail := by
      rw [ht]; simp [List.getLast?_append, List.getLast?_cons]
    rw [e]
    cases l.getLast? <;> simp

theorem prevOf_unlink {t : DLinked α} {l r : List Nat} {a : Nat} (h : Rep t (l ++ a :: r))
    {b : Nat} (hb : b ≠ a) :
    prevOf (t.unlink a).heap b = if r.head? = some b then l.getLast? else prevOf t.heap b := by
  obtain ⟨n, hn, hp, hx⟩ := getElem?_of_rep h
  have ha := h.bound a (by simp)
  unfold unlink
  rw [hn]
  simp only [hp, hx]
  cases hr : r with
  | nil => cases l.getLast? <;> simp [prevOf_setPrev, ha, hb]
  | cons c r =>
    have hc := h.bound c (by simp [hr])
    cases l.getLast? <;> simp [prevOf_setPrev, ha, hb, hc, eq_comm]

theorem nextOf_unlink {t : DLinked α} {l r : List Nat} {a : Nat} (h : Rep t (l ++ a :: r))
    {b : Nat} (hb : b ≠ a) :
    nextOf (t.unlink a).heap b = if l.getLast? = some b then r.head? else nextOf t.heap b := by
  obtain ⟨n, hn, hp, hx⟩ := getElem?_of_rep h
  have ha := h.bound a (by simp)
  unfold unlink
  rw [hn]
  simp only [hp, hx]
  cases hl : l.getLast? with
  | none => cases r <;> simp [nextOf_setNext, ha, hb]
  | some c =>
    have hc := h.bound c (List.mem_append_left _ (List.mem_of_getLast? hl))
    cases r <;> simp [nextOf_setNext, ha, hb, hc, eq_comm]

theorem nextOf_unlink_self {t : DLinked α} {l r : List Nat} {a : Nat} (h : Rep t (l ++ a :: r)) :
    nextOf (t.unlink a).heap a = none := by
  obtain ⟨n, hn, -⟩ := getElem?_of_rep h
  have ha := h.bound a (by simp)
  unfold unlink
  rw [hn]
  obtain ⟨x, _ | p, _ | q⟩ := n <;> simp [nextOf_setNext, ha]

theorem Rep.apart {t : DLinked α} {l r : List Nat} {a : Nat} (h : Rep t (l ++ a :: r)) :
    l.Nodup ∧ r.Nodup ∧ a ∉ l ∧ a ∉ r ∧ ∀ x ∈ l, x ∉ r := by
  have hnd := h.nodup
  rw [List.nodup_append, List.nodup_cons] at hnd
  obtain ⟨hl, ⟨har, hr⟩, hd⟩ := hnd
  exact ⟨hl, hr, fun hm => hd a hm a List.mem_cons_self rfl, har,
    fun x hx hy => hd x hx x (List.mem_cons_of_mem _ hy) rfl⟩

theorem Rep.prev_unlink {t : DLinked α} {l r : List Nat} {a : Nat} (h : Rep t (l ++ a :: r))
    (l' : List Nat) (b : Nat) (r' : List Nat) (e : l ++ r = l' ++ b :: r') :
    prevOf (t.unlink a).heap b = l'.getLast? := by
  obtain ⟨-, hr, hal, har, hlr⟩ := h.apart
  rcases List.append_eq_append_iff.mp e with ⟨s, rfl, rfl⟩ | ⟨s, rfl, e'⟩
  · -- `b` lies after the seam
    have hba : b ≠ a := fun e => har (by simp [e])
    rw [prevOf_unlink h hba]
    cases s with
    | nil => simp
    | cons c s =>
      have hcb : c ≠ b := fun e => by simp [e] at hr
      have := h.prev (l ++ a :: c :: s) b r' (by simp)
      simp [this, hcb, List.getLast?_append, List.getLast?_cons]
  · cases s with
    | nil =>
      simp only [List.nil_append] at e'
      subst e'
      have hba : b ≠ a := fun e => har (by simp [e])
      rw [prevOf_unlink h hba]
      simp
    | cons c s =>
      simp only [List.cons_append, List.cons.injEq] at e'
      obtain ⟨rfl, rfl⟩ := e'
      have hba : b ≠ a := fun e => hal (by simp [e])
      rw [prevOf_unlink h hba, if_neg (fun e => hlr b (by simp) (List.mem_of_head? e))]
      exact h.prev l' b (s ++ a :: r) (by simp)

theorem Rep.next_unlink {t : DLinked α} {l r : List Nat} {a : Nat} (h : Rep t (l ++ a :: r))
    (l' : List Nat) (b : Nat) (r' : List Nat) (e : l ++ r = l' ++ b :: r') :
    nextOf (t.unlink a).heap b = r'.head? := by
  obtain ⟨hl, -, hal, har, hlr⟩ := h.apart
  rcases List.append_eq_append_iff.mp e with ⟨s, rfl, rfl⟩ | ⟨s, rfl, e'⟩
  · have hba : b ≠ a := fun e => har (by simp [e])
    rw [nextOf_unlink h hba, if_neg (fun e => hlr b (List.mem_of_getLast? e) (by simp))]
    exact h.next (l ++ a :: s) b r' (by simp)
  · cases s with
    | nil =>
      simp only [List.nil_append] at e'
      subst e'
      have hba : b ≠ a := fun e => har (by simp [e])
      rw [nextOf_unlink h hba, if_neg (fun e => hlr b (List.mem_of_getLast? e) (by simp))]
      exact h.next (l' ++ [] ++ [a]) b r' (by simp)
    | cons c s =>
      simp only [List.cons_append, List.cons.injEq] at e'
      obtain ⟨rfl, rfl⟩ := e'
      have hba : b ≠ a := fun e => hal (by simp [e])
      rw [nextOf_unlink h hba]
      have hn := h.next l' b (s ++ a :: r) (by simp)
      cases s with
      | nil => simp
      | cons d s =>
        -- `b` is not the last before the seam, as that comes after it
        have hlast : (l' ++ b :: d :: s).getLast? ≠ some b := fun e => by
          have : b ∈ d :: s := by
            rw [List.getLast?_append, List.getLast?_cons_cons] at e
            obtain ⟨z, hz⟩ : ∃ z, (d :: s).getLast? = some z :=
              ⟨_, List.getLast?_eq_some_getLast (by simp)⟩
            rw [hz] at e
            simp only [Option.some_or, Option.some.injEq] at e
            exact List.mem_of_getLast? (e ▸ hz)
          exact (List.nodup_cons.mp (List.nodup_append.mp hl).2.1).1 this
        rw [if_neg hlast, hn]; rfl

theorem Rep.unlink {t : DLinked α} {l r : List Nat} {a : Nat} (h : Rep t (l ++ a :: r)) :
    Rep (t.unlink a) (l ++ r) := by
  obtain ⟨hl, hr, -, -, hlr⟩ := h.apart
  refine ⟨?_, head_unlink h, tail_unlink h, ?_, h.prev_unlink, h.next_unlink⟩
  · exact List.nodup_append.mpr ⟨hl, hr, fun x hx y hy e => hlr x hx (e ▸ hy)⟩
  · intro b hb
    rw [length_heap_unlink]
    refine h.bound b ?_
    rcases List.mem_append.mp hb with hb | hb <;> simp [hb]

theorem Rep.unlink_erase {t : DLinked α} {as : List Nat} {a : Nat} (h : Rep t as) (ha : a ∈ as) :
    Rep (t.unlink a) (as.erase a) := by
  obtain ⟨l, r, rfl⟩ := List.append_of_mem ha
  have hn : a ∉ l := fun hm =>
    (List.nodup_append.mp h.nodup).2.2 a hm a List.mem_cons_self rfl
  rw [List.erase_append_right _ hn, List.erase_cons_head]
  exact h.unlink

/-! ## Traversal -/

theorem walk_suffix {t : DLinked α} {as : List Nat} (h : Rep t as) :
    ∀ (l r : List Nat) (n : Nat), as = l ++ r → r.length ≤ n → walk t.heap n r.head? = r := by
  intro l r
  induction r generalizing l with
  | nil => intro n _ _; cases n <;> rfl
  | cons a r ih =>
    intro n e hn
    obtain ⟨m, rfl⟩ : ∃ m, n = m + 1 := ⟨n - 1, by simp at hn; omega⟩
    obtain ⟨c, hc, -, hx⟩ := getElem?_of_rep (l := l) (a := a) (r := r) (e ▸ h)
    simp only [List.head?_cons, walk, hc, hx]
    rw [ih (l ++ [a]) m (by simp [e]) (by simpa using hn)]

theorem Rep.length_le {t : DLinked α} {as : List Nat} (h : Rep t as) : as.length ≤ t.heap.length := by
  have hs : as.Subperm (List.range t.heap.length) :=
    h.nodup.subperm fun a ha => List.mem_range.mpr (h.bound a ha)
  simpa using hs.length_le

/-- Following `next` from the head visits the represented addresses. -/
theorem Rep.walk {t : DLinked α} {as : List Nat} (h : Rep t as) :
    DLinked.walk t.heap t.heap.length t.head = as := by
  rw [h.head]
  exact walk_suffix h [] as _ rfl h.length_le

/-- Following pointers from a start meets exactly the given addresses, and then none. -/
def Follows (pointer : Nat → Option Nat) : Option Nat → List Nat → Prop
  | start, [] => start = none
  | start, a :: as => start = some a ∧ Follows pointer (pointer a) as

theorem Rep.follows_next {t : DLinked α} {as : List Nat} (h : Rep t as) :
    Follows (nextOf t.heap) t.head as := by
  have hsuffix : ∀ r l, as = l ++ r → Follows (nextOf t.heap) r.head? r := by
    intro r
    induction r with
    | nil => exact fun _ _ => rfl
    | cons a r ih =>
      intro l e
      refine ⟨rfl, ?_⟩
      rw [h.next l a r e]
      exact ih (l ++ [a]) (by rw [e, List.append_assoc]; rfl)
  rw [h.head]
  exact hsuffix as [] rfl

/-- The way back is the way there reversed. -/
theorem Rep.follows_prev {t : DLinked α} {as : List Nat} (h : Rep t as) :
    Follows (prevOf t.heap) t.tail as.reverse := by
  have hprefix : ∀ l r, as = l ++ r → Follows (prevOf t.heap) l.getLast? l.reverse := by
    intro l
    induction l using List.reverseRecOn with
    | nil => exact fun _ _ => rfl
    | append_singleton l a ih =>
      intro r e
      rw [List.append_assoc] at e
      rw [List.getLast?_concat, List.reverse_concat]
      refine ⟨rfl, ?_⟩
      rw [h.prev l a r e]
      exact ih (a :: r) e
  rw [h.tail]
  exact hprefix as [] (List.append_nil _).symm

theorem Rep.prev_head {t : DLinked α} {as : List Nat} (h : Rep t as) {a : Nat}
    (ha : t.head = some a) : prevOf t.heap a = none := by
  cases as with
  | nil => rw [h.head] at ha; cases ha
  | cons b as =>
    rw [h.head] at ha
    cases ha
    exact h.prev [] a as rfl

theorem Rep.next_tail {t : DLinked α} {as : List Nat} (h : Rep t as) {a : Nat}
    (ha : t.tail = some a) : nextOf t.heap a = none := by
  rw [h.tail] at ha
  obtain ⟨l, e⟩ := List.getLast?_eq_some_iff.mp ha
  exact h.next l a [] e

theorem Rep.map_itemAt {t : DLinked α} {as : List Nat} (h : Rep t as) :
    as.map t.itemAt = (as.filterMap t.itemAt).map some := by
  rw [List.map_filterMap, ← List.filterMap_eq_map]
  refine List.filterMap_congr fun a ha => ?_
  rw [Function.comp_apply, itemAt_of_lt (h.bound a ha)]
  rfl

theorem Rep.unique {t : DLinked α} {as bs : List Nat} (h : Rep t as) (h' : Rep t bs) : as = bs :=
  h.walk.symm.trans h'.walk

end DLinked
