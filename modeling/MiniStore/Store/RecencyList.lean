import MiniStore.Lib.Trace
import MiniStore.Store.LRUTracker

/-!
# The tracker as a plain list

A list of keys, the most recently used first, is what `LRUTracker` is for: `onList` gives the
calls their meaning on it. `Linked` says what the pointers of the class look like when they
carry such a list, and `Reads` what a caller reads off them. In every run of calls the tracker
carries the list, and answers as the list does (`tracker_refines_list`).
-/

namespace MiniStore

namespace LRUTracker

/-- The calls that write the tracker. -/
inductive Call where
  | touch (key : Str)
  | delete (key : Str)
  | evictLRU
  deriving DecidableEq

/-- What such a call returns. -/
inductive Answer where
  | done
  | deleted (tracked : Bool)
  | evicted (key : Option Str)
  deriving DecidableEq

def onList (keys : List Str) : Call → List Str × Answer
  | .touch key => (key :: keys.erase key, .done)
  | .delete key => (keys.erase key, .deleted (decide (key ∈ keys)))
  | .evictLRU => (keys.dropLast, .evicted keys.getLast?)

namespace Raw

def call (t : Raw) : Call → Raw × Answer
  | .touch key => (t.touch key, .done)
  | .delete key => ((t.delete key).1, .deleted (t.delete key).2)
  | .evictLRU => (t.evictLRU.1, .evicted t.evictLRU.2)

/-- The pointers thread the nodes `as` both ways, and these are the nodes of the map, with
the keys `keys`. -/
structure Linked (as : List Nat) (keys : List Str) (t : Raw) : Prop where
  distinct : as.Nodup
  next : DLinked.Follows (DLinked.nextOf t.list.heap) t.list.head as
  ends : as.getLast? = t.list.tail
  prev : DLinked.Follows (DLinked.prevOf t.list.heap) t.list.tail as.reverse
  head_prev : ∀ a, t.list.head = some a → DLinked.prevOf t.list.heap a = none
  tail_next : ∀ a, t.list.tail = some a → DLinked.nextOf t.list.heap a = none
  keys_at : as.map t.list.itemAt = keys.map some
  nodes : ∀ k a, t.nodes.get? k = some a ↔ a ∈ as ∧ t.list.itemAt a = some k
  mapped : t.nodes.keys.Perm keys

/-- What a caller reads off the tracker is what it reads off the list. -/
structure Reads (keys : List Str) (t : Raw) : Prop where
  keysMRU : t.keysMRU = keys
  has : ∀ k, t.has k = decide (k ∈ keys)
  size : t.size = keys.length
  peekLRU : t.peekLRU = keys.getLast?

/-- A well-linked tracker that carries the keys. -/
structure Carries (t : Raw) (keys : List Str) : Prop where
  wf : t.WF
  order : t.keysMRU = keys

/-! ## What a tracker that carries a list looks like -/

variable {t : Raw} {keys : List Str}

theorem Carries.linked (h : t.Carries keys) : ∃ as, t.Linked as keys := by
  have hperm := perm_keysMRU h.wf
  obtain ⟨as, hthreads⟩ := h.wf
  refine ⟨as, hthreads.rep.nodup, hthreads.rep.follows_next, hthreads.rep.tail.symm,
    hthreads.rep.follows_prev, fun _ => hthreads.rep.prev_head, fun _ => hthreads.rep.next_tail, ?_,
    hthreads.nodes, h.order ▸ hperm⟩
  rw [← h.order, keysMRU_eq hthreads]
  exact hthreads.rep.map_itemAt

theorem Carries.reads (h : t.Carries keys) : t.Reads keys := by
  obtain ⟨hwf, rfl⟩ := h
  refine ⟨rfl, fun k => ?_, ?_, peekLRU_eq hwf⟩
  · rw [Bool.eq_iff_iff, decide_eq_true_iff, mem_keysMRU hwf]
  · rw [← (perm_keysMRU hwf).length_eq, OrdMap.length_keys]
    rfl

/-! ## The refinement -/

theorem carries_empty : empty.Carries [] := ⟨⟨[], threads_empty⟩, rfl⟩

theorem Carries.call (h : t.Carries keys) (c : Call) :
    (t.call c).1.Carries (onList keys c).1 ∧ (t.call c).2 = (onList keys c).2 := by
  obtain ⟨hwf, rfl⟩ := h
  cases c with
  | touch key => exact ⟨⟨hwf.touch key, keysMRU_touch hwf key⟩, rfl⟩
  | delete key =>
    have hanswer := congrArg Answer.deleted (delete_answer hwf key)
    exact ⟨⟨hwf.delete key, keysMRU_delete hwf key⟩, hanswer⟩
  | evictLRU =>
    have hanswer := congrArg Answer.evicted (evictLRU_answer hwf)
    exact ⟨⟨hwf.evictLRU, keysMRU_evictLRU hwf⟩, hanswer⟩

end Raw

open Trace

/-- For every sequence of calls: `next` followed from the head meets finitely many distinct nodes
up to the tail, `prev` followed from the tail meets them backwards, and their keys, each mapped to
its node, are the list that the calls make of the empty one. Whatever the tracker is asked, it
answers as that list does. -/
theorem tracker_refines_list (calls : List Call) :
    (∃ as, Raw.Linked as (answered onList [] calls).1 (answered Raw.call Raw.empty calls).1) ∧
      Raw.Reads (answered onList [] calls).1 (answered Raw.call Raw.empty calls).1 ∧
      (answered Raw.call Raw.empty calls).2 = (answered onList [] calls).2 := by
  obtain ⟨hcarries, hanswers⟩ :=
    refines_rule (R := Raw.Carries) (fun c h => h.call c) Raw.carries_empty calls
  exact ⟨hcarries.linked, hcarries.reads, hanswers⟩

/-- A key in the middle moves to the front, then the last one is evicted. -/
example : (answered Raw.call Raw.empty [.touch ['a'], .touch ['b'], .touch ['c'], .touch ['b'],
    .evictLRU, .delete ['a']]).2 =
      [.done, .done, .done, .done, .evicted (some ['a']), .deleted false] := by decide

end LRUTracker

end MiniStore
