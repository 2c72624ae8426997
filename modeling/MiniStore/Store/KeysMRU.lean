import MiniStore.Store.ReadOut

/-!
# keysMRU

A generator over a generator: `LRUTracker.keysMRU` stands on a list node while the loop that
consumes it runs, and then reads that node's `next`. The body of `InMemoryStore.keysMRU` may
remove the key of the very node, and `#unlink` clears `next`. So with the clock held still the
iteration ends at the first expired key (`keysMRULoop_still`).
-/

namespace MiniStore

namespace InMemoryStore

/-- `for (const key of store.keysMRU())` with `body` as the body of the loop. The tracker's
generator stands on the node `current`. `none` is a walk that the fuel does not suffice for. -/
def keysMRULoop {α : Type} (clocks : Clocks)
    (body : Nat → Str → InMemoryStore → InMemoryStore × List α) :
    Nat → Option Nat → Nat → InMemoryStore → Option (InMemoryStore × List α)
  | _, none, _, s => some (s, [])
  | 0, some _, _, _ => none
  | fuel + 1, some current, i, s =>
    match s.lru.raw.list.itemAt current with
    | none => none
    | some key =>
      match s.expireIfNeeded key (clocks i 0) with
      | (s, expired) =>
        match if expired then (s, []) else body i key s with
        | (s, out) =>
          -- `current = current.next`, as it is by now
          let next := DLinked.nextOf s.lru.raw.list.heap current
          (keysMRULoop clocks body fuel next (i + 3) s).map fun (s, more) => (s, out ++ more)

/-- The loop from `#head`. -/
def forKeysMRU {α : Type} (s : InMemoryStore) (clocks : Clocks)
    (body : Nat → Str → InMemoryStore → InMemoryStore × List α) :
    Option (InMemoryStore × List α) :=
  keysMRULoop clocks body s.lru.raw.list.heap.length s.lru.raw.list.head 0 s

def keysMRU (s : InMemoryStore) (clocks : Clocks) : Option (InMemoryStore × List Str) :=
  s.forKeysMRU clocks fun _ key s => (s, [key])

def live (s : InMemoryStore) (t : Int) (key : Str) : Bool := (liveAt t (s.cell key)).isSome

/-- The store after the iteration: the first key that is due is gone. -/
def afterMRU (s : InMemoryStore) (t : Int) (ks : List Str) : InMemoryStore :=
  match ks.find? fun k => !s.live t k with
  | none => s
  | some k => s.drop k

theorem live_iff {s : InMemoryStore} {t : Int} {k : Str} :
    s.live t k = true ↔ ∃ c, s.cell k = some c ∧ c.expired t = false := by
  rw [live, Option.isSome_iff_exists]
  exact exists_congr fun c => liveAt_eq_some

theorem expireIfNeeded_of_cell {s : InMemoryStore} {key : Str} (h : s.cell key ≠ none) (t : Int) :
    s.expireIfNeeded key t = if s.live t key then (s, false) else (s.drop key, true) := by
  rw [expireIfNeeded_of_stored h, live]
  rcases expireIfNeeded_cases s key t with ⟨-, hp, hl⟩ | ⟨-, hp, c, hc, hx⟩
  · obtain ⟨c, hc⟩ := Option.ne_none_iff_exists'.mp h
    rw [hp, hl, hc]
    rfl
  · rw [hp, hc, liveAt_some, if_pos hx]
    rfl

section

variable {s : InMemoryStore} {as : List Nat} {a : Nat} {k : Str}

/-- Once a key is dropped, its node has no successor. -/
theorem nextOf_drop (hT : s.lru.raw.Threads as) (ha : a ∈ as)
    (hk : s.lru.raw.list.itemAt a = some k) (hs : s.values.has k = true) :
    DLinked.nextOf (s.drop k).lru.raw.list.heap a = none := by
  have hn : s.lru.raw.nodes.get? k = some a := (hT.nodes k a).mpr ⟨ha, hk⟩
  have e : (s.drop k).lru.raw.list = s.lru.raw.list.unlink a := by
    simp only [drop, onExpired, removeKey, if_pos hs, LRUTracker.delete, LRUTracker.Raw.delete, hn]
  obtain ⟨l, r, rfl⟩ := List.append_of_mem ha
  rw [e]
  exact DLinked.nextOf_unlink_self hT.rep

variable {α : Type} {body : Nat → Str → InMemoryStore → InMemoryStore × List α}
  {out : Str → List α} {t : Int}

/-- From any node on, the loop takes the keys up to the first that is due. -/
theorem keysMRULoop_still (h : s.Lockstep) (hT : s.lru.raw.Threads as)
    (hbody : ∀ i key, s.live t key = true → body i key s = (s, out key)) :
    ∀ (r l : List Nat) (fuel i : Nat), as = l ++ r → r.length ≤ fuel →
      keysMRULoop (Clocks.still t) body fuel r.head? i s =
        some (s.afterMRU t (r.filterMap s.lru.raw.list.itemAt),
          ((r.filterMap s.lru.raw.list.itemAt).takeWhile (s.live t)).flatMap out) := by
  intro r
  induction r with
  | nil => intro l fuel i _ _; cases fuel <;> rfl
  | cons a r ih =>
    intro l fuel i hr hfuel
    obtain ⟨n, rfl⟩ : ∃ n, fuel = n + 1 := ⟨fuel - 1, by simp at hfuel; omega⟩
    have ha : a ∈ as := by simp [hr]
    have hb := hT.rep.bound a ha
    obtain ⟨k, hk⟩ : ∃ k, s.lru.raw.list.itemAt a = some k := ⟨_, DLinked.itemAt_of_lt hb⟩
    have hs : s.values.has k = true := by
      rw [← h.tracked, LRUTracker.order, LRUTracker.Raw.keysMRU_eq hT]
      exact List.mem_filterMap.mpr ⟨a, ha, hk⟩
    have hgate := expireIfNeeded_of_cell (has_iff_cell.mp hs) t
    rw [List.filterMap_cons_some hk]
    simp only [List.head?_cons, keysMRULoop, hk, Clocks.still, Clock.still, hgate]
    cases hl : s.live t k with
    | true =>
      have hnext := hT.rep.next l a r hr
      have hrest := ih (l ++ [a]) n (i + 3) (by simp [hr]) (by simpa using hfuel)
      simp only [if_true, Bool.false_eq_true, if_false, hbody i k hl, hnext]
      rw [hrest]
      simp [afterMRU, hl]
    | false =>
      have hnext := nextOf_drop hT ha hk hs
      simp only [Bool.false_eq_true, if_false, if_true, hnext]
      cases n <;> simp [keysMRULoop, afterMRU, hl]

theorem forKeysMRU_still (h : s.Lockstep)
    (hbody : ∀ i key, s.live t key = true → body i key s = (s, out key)) :
    s.forKeysMRU (Clocks.still t) body =
      some (s.afterMRU t s.lru.order, (s.lru.order.takeWhile (s.live t)).flatMap out) := by
  obtain ⟨as, hT⟩ := s.lru.wf
  have := keysMRULoop_still h hT hbody as [] _ 0 rfl hT.rep.length_le
  rwa [← hT.rep.head, ← LRUTracker.Raw.keysMRU_eq hT] at this

theorem keysMRU_still (h : s.Lockstep) (t : Int) : s.keysMRU (Clocks.still t) =
    some (s.afterMRU t s.lru.order, s.lru.order.takeWhile (s.live t)) := by
  have hloop : s.forKeysMRU (Clocks.still t) (fun _ key s => (s, [key])) =
      some (s.afterMRU t s.lru.order,
        (s.lru.order.takeWhile (s.live t)).flatMap fun key => [key]) :=
    forKeysMRU_still h fun _ _ _ => rfl
  rw [keysMRU, hloop, List.flatMap_singleton']

end

/-- What is taken from the front is all there is, if nothing comes after a gap. -/
theorem takeWhile_eq_filter_iff {α : Type} {p : α → Bool} : ∀ {l : List α},
    l.takeWhile p = l.filter p ↔ l.Pairwise fun a b => p b = true → p a = true
  | [] => by simp
  | a :: l => by
    rw [List.pairwise_cons, ← takeWhile_eq_filter_iff]
    cases ha : p a with
    | true => simp [ha]
    | false =>
      simp only [List.takeWhile_cons, List.filter_cons, ha, Bool.false_eq_true, if_false]
      constructor
      · intro h
        have hnone := fun b hb => List.filter_eq_nil_iff.mp h.symm b hb
        refine ⟨fun b hb hp => absurd hp (hnone b hb), ?_⟩
        cases l with
        | nil => rfl
        | cons b l =>
          rw [← h, List.takeWhile_cons_of_neg (hnone b List.mem_cons_self)]
      · rintro ⟨h, -⟩
        exact (List.filter_eq_nil_iff.mpr fun b hb hp => by cases h b hb hp).symm

theorem Lockstep.size_afterMRU {s : InMemoryStore} (h : s.Lockstep) (t : Int) :
    (s.afterMRU t s.lru.order).size =
      if s.lru.order.all (s.live t) then s.lru.order.length else s.lru.order.length - 1 := by
  unfold afterMRU
  cases hf : s.lru.order.find? fun k => !s.live t k with
  | none =>
    have hall : s.lru.order.all (s.live t) = true := by
      rw [List.all_eq_true]
      intro k hk
      simpa using List.find?_eq_none.mp hf k hk
    rw [if_pos hall, h.length_order]
    rfl
  | some k =>
    have hk := List.mem_of_find?_eq_some hf
    have hdue := List.find?_some hf
    have hall : ¬ s.lru.order.all (s.live t) = true := fun e => by
      rw [List.all_eq_true.mp e k hk] at hdue
      cases hdue
    have hsize : (s.drop k).size = (s.drop k).lru.order.length := (h.drop k).length_order.symm
    have horder : (s.drop k).lru.order = s.lru.order.erase k := h.order_removeKey k
    rw [if_neg hall]
    exact hsize.trans ((congrArg List.length horder).trans (List.length_erase_of_mem hk))

end InMemoryStore

end MiniStore
