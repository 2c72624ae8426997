import MiniStore.Store.Sweeps

/-!
# Reading out a store at one time

`PersistenceManager.save` and `AofWriter.rewrite` list the keys with KEYS and read each
of them. With the clock held still, KEYS drops what is due and lists the live keys in
the order of insertion (`listed`), and then every key listed is touched once
(`extract_still`, `rewriteCommands_still`). The lines of a rewrite are those of the live
cells (`keyLines`).
-/

namespace MiniStore

open InMemoryStore

/-- The keys `keys('*')` returns at `t`. -/
def listed (t : Int) (s : InMemoryStore) : List Str :=
  s.values.keys.filter fun k => (liveAt t (s.cell k)).isSome && globMatch ['*'] k

def touchAll (ks : List Str) (s : InMemoryStore) : InMemoryStore := ks.foldl InMemoryStore.touch s

theorem touchAll_cons (k : Str) (ks : List Str) (s : InMemoryStore) :
    touchAll (k :: ks) s = touchAll ks (s.touch k) := rfl

theorem touchAll_eq : ∀ (ks : List Str) (s : InMemoryStore),
    touchAll ks s = { s with lru := (touchAll ks s).lru }
  | [], _ => rfl
  | k :: ks, s => by
    rw [touchAll_cons]
    exact touchAll_eq ks (s.touch k)

theorem cell_touchAll (ks : List Str) (s : InMemoryStore) (k : Str) :
    (touchAll ks s).cell k = s.cell k := by
  rw [touchAll_eq]
  rfl

theorem lockstep_touchAll : ∀ (ks : List Str) {s : InMemoryStore}, s.Lockstep →
    (∀ k ∈ ks, s.cell k ≠ none) → (touchAll ks s).Lockstep
  | [], _, h, _ => h
  | k :: ks, s, h, hk => by
    obtain ⟨c, hc⟩ := Option.ne_none_iff_exists'.mp (hk k List.mem_cons_self)
    have ht := PersistenceManager.lockstep_touch h hc
    exact lockstep_touchAll ks ht fun j hj => hk j (List.mem_cons_of_mem _ hj)

/-- The keys touched come to the front, the last of them first. -/
theorem order_touchAll : ∀ (ks : List Str) (s : InMemoryStore), ks.Nodup →
    (touchAll ks s).lru.order = ks.reverse ++ s.lru.order.filter fun k => decide (k ∉ ks)
  | [], s, _ => (List.filter_eq_self.mpr fun _ _ => by simp).symm
  | k :: ks, s, hnd => by
    obtain ⟨hk, hnd⟩ := List.nodup_cons.mp hnd
    have ho : (s.touch k).lru.order = k :: s.lru.order.erase k := LRUTracker.order_touch ..
    rw [touchAll_cons, order_touchAll ks _ hnd, ho, s.lru.nodup_order.erase_eq_filter,
      List.filter_cons_of_pos (by simpa using hk), List.filter_filter, List.reverse_cons,
      List.append_assoc]
    refine congrArg (ks.reverse ++ k :: ·) (List.filter_congr fun j _ => ?_)
    by_cases hj : j = k <;> simp [hj]

/-! ## The two loops -/

namespace PersistenceManager

theorem saveLoop_still (t : Int) : ∀ (keys : List Str) (i : Nat) {s : InMemoryStore} (dump : Dump),
    (∀ k ∈ keys, s.cell k ≠ none ∧ liveAt t (s.cell k) = s.cell k) →
      (saveLoop (Clocks.still t) keys i s dump).1 = touchAll keys s
  | [], _, _, _, _ => rfl
  | key :: keys, i, s, dump, hk => by
    obtain ⟨hne, hl⟩ := hk key List.mem_cons_self
    obtain ⟨c, hc⟩ := Option.ne_none_iff_exists'.mp hne
    rw [saveLoop, saveKey_live hc fun _ _ => hl]
    exact saveLoop_still t keys (i + 3) _ fun k hm => hk k (List.mem_cons_of_mem _ hm)

end PersistenceManager

namespace AofWriter

/-- The lines of a key that holds `c`, with its `ttl` read at `now`. -/
def keyLines (key : Str) (now : Int) (c : Cell) : List Str :=
  let ttl := (ttlCell now (some c)).2
  let seconds : Str := (toString ttl).toList
  let expireLine : List Str :=
    if ttl > 0 then ["EXPIRE ".toList ++ key ++ ' ' :: seconds] else []
  match c.value with
  | .string val =>
    if ttl > 0 then ["SET ".toList ++ key ++ ' ' :: val ++ " EX ".toList ++ seconds]
    else ["SET ".toList ++ key ++ ' ' :: val]
  | .list values =>
    (if values.length > 0 then ["RPUSH ".toList ++ key ++ ' ' :: joinSpace values] else []) ++
      expireLine
  | .hash map =>
    let values := map.entries.flatMap fun e => [e.1, e.2]
    (if values.length > 0 then ["HSET ".toList ++ key ++ ' ' :: joinSpace values] else []) ++
      expireLine

theorem rewriteKey_live {s : InMemoryStore} {key : Str} {c : Cell} (hc : s.cell key = some c)
    {clocks : Clocks} {i : Nat}
    (hl : ∀ j < 3, liveAt (clocks (i + j) 0) (s.cell key) = s.cell key) :
    rewriteKey clocks i key s = (s.touch key, keyLines key (clocks (i + 1) 1) c) := by
  have h0 : liveAt (clocks i 0) (s.cell key) = s.cell key := hl 0 (by omega)
  have h1 := hl 1 (by omega)
  have h2 := hl 2 (by omega)
  unfold rewriteKey
  rw [keyType_eq, PersistenceManager.perform_of_live h0]
  simp only [hc, keyTypeCell, commit, Option.map_some, ttl_eq, PersistenceManager.perform_of_live h1]
  have hkeep : (ttlCell (clocks (i + 1) 1) (some c)).1 = .keep := by
    obtain ⟨v, _ | d⟩ := c <;> rfl
  rw [hkeep]
  obtain ⟨v, d⟩ := c
  cases v with
  | string v =>
    simp only [StoredValue.type, commit, get_eq, PersistenceManager.perform_of_live h2, hc, getCell,
      keyLines]
    split <;> rfl
  | list l =>
    simp only [StoredValue.type, commit, lrange, readAs_eq, PersistenceManager.perform_of_live h2, hc,
      readCell, StoredValue.asList, PersistenceManager.slice_all, keyLines]
  | hash m =>
    simp only [StoredValue.type, commit, hgetall, readAs_eq, PersistenceManager.perform_of_live h2, hc,
      readCell, StoredValue.asHash, keyLines]

def linesOf (t : Int) (cells : Str → Option Cell) (keys : List Str) : List Str :=
  keys.flatMap fun k => ((cells k).map (keyLines k t)).getD []

theorem rewriteLoop_still (t : Int) : ∀ (keys : List Str) (i : Nat) {s : InMemoryStore},
    (∀ k ∈ keys, s.cell k ≠ none ∧ liveAt t (s.cell k) = s.cell k) →
      rewriteLoop (Clocks.still t) keys i s = (touchAll keys s, linesOf t s.cell keys)
  | [], _, _, _ => rfl
  | key :: keys, i, s, hk => by
    obtain ⟨hne, hl⟩ := hk key List.mem_cons_self
    obtain ⟨c, hc⟩ := Option.ne_none_iff_exists'.mp hne
    have ih : rewriteLoop (Clocks.still t) keys (i + 3) (s.touch key) = _ :=
      rewriteLoop_still t keys (i + 3) fun k hm => hk k (List.mem_cons_of_mem _ hm)
    rw [rewriteLoop, rewriteKey_live hc fun _ _ => hl]
    simp only
    have hlines : linesOf t s.cell (key :: keys) = keyLines key t c ++ linesOf t s.cell keys := by
      rw [linesOf, List.flatMap_cons, hc]
      rfl
    rw [ih, hlines]
    rfl

end AofWriter

/-! ## The whole store -/

theorem listed_nodup (t : Int) (s : InMemoryStore) : (listed t s).Nodup :=
  s.values.keys_nodup.filter _

theorem mem_listed {t : Int} {s : InMemoryStore} {k : Str} :
    k ∈ listed t s ↔ (liveAt t (s.cell k)).isSome = true ∧ globMatch ['*'] k = true := by
  rw [listed, List.mem_filter, Bool.and_eq_true_iff, mem_keys]
  refine and_iff_right_of_imp fun hl hn => ?_
  rw [hn] at hl
  exact absurd hl.1 Bool.false_ne_true

/-- `*` lists all that is live, where no key has a line terminator. -/
theorem listed_of_oneLine (t : Int) {s : InMemoryStore}
    (h : ∀ k, s.cell k ≠ none → PersistenceManager.OneLine k) :
    listed t s = s.values.keys.filter fun k => (liveAt t (s.cell k)).isSome := by
  refine List.filter_congr fun k hk => ?_
  rw [(PersistenceManager.globMatch_star k).mpr (h k (mem_keys.mp hk)), Bool.and_true]

theorem eq_filter_of_sublist {l m : List Str} (hs : l.Sublist m) (hm : m.Nodup) {p : Str → Bool}
    (hp : ∀ k, k ∈ l ↔ k ∈ m ∧ p k = true) : l = m.filter p := by
  have hsub : l.Sublist (m.filter p) := by
    have := hs.filter p
    rwa [List.filter_eq_self.mpr fun k hk => ((hp k).mp hk).2] at this
  refine hsub.eq_of_length_le (List.subperm_of_subset (hm.filter p) fun k hk => ?_).length_le
  exact (hp k).mpr (List.mem_filter.mp hk)

/-- What a read-out at `t` leaves of `s`. -/
structure ReadOut (t : Int) (s s' : InMemoryStore) : Prop where
  lockstep : s'.Lockstep
  maxKeys : s'.maxKeys = s.maxKeys
  cell : ∀ k, s'.cell k = liveAt t (s.cell k)
  order : s'.lru.order = (listed t s).reverse ++
    s.lru.order.filter fun k => (liveAt t (s.cell k)).isSome && decide (k ∉ listed t s)

section

variable {s : InMemoryStore} (h : s.Lockstep) (t : Int)

include h

/-- KEYS leaves the live cells, their keys in the same order. -/
theorem keys_still_store (pattern : Str) : (s.keys pattern (Clock.still t)).1.Lockstep ∧
    (∀ k, (s.keys pattern (Clock.still t)).1.cell k = liveAt t (s.cell k)) ∧
    (s.keys pattern (Clock.still t)).1.lru.order =
      s.lru.order.filter fun k => (liveAt t (s.cell k)).isSome := by
  have hL : (s.keys pattern (Clock.still t)).1.Lockstep :=
    (h.decays_keys (T := fun _ => True) pattern fun _ => trivial).lockstep
  have hcell := (keys_still h pattern t).1
  have hsub : (s.keys pattern (Clock.still t)).1.lru.order.Sublist s.lru.order :=
    order_keysLoop _ _ _ 0 h
  refine ⟨hL, hcell, eq_filter_of_sublist hsub s.lru.nodup_order fun k => ?_⟩
  rw [hL.tracked, h.tracked, has_iff_cell, has_iff_cell, hcell, ← Option.isSome_iff_ne_none]
  refine (and_iff_right_of_imp fun hl hn => ?_).symm
  rw [hn] at hl
  exact absurd hl Bool.false_ne_true

/-- The keys listed are all there, and live, when they are read. -/
theorem listed_live : ∀ k ∈ listed t s, (s.keys ['*'] (Clock.still t)).1.cell k ≠ none ∧
    liveAt t ((s.keys ['*'] (Clock.still t)).1.cell k) =
      (s.keys ['*'] (Clock.still t)).1.cell k := by
  intro k hk
  have hl := (mem_listed.mp hk).1
  rw [(keys_still_store h t _).2.1, liveAt_liveAt (Int.le_refl t)]
  exact ⟨Option.isSome_iff_ne_none.mp hl, rfl⟩

theorem extract_still : (PersistenceManager.extract s (Clocks.still t)).1 =
    touchAll (listed t s) (s.keys ['*'] (Clock.still t)).1 := by
  have hk : (s.keys ['*'] (Clock.still t)).2 = listed t s := (keys_still h ['*'] t).2
  show (PersistenceManager.saveLoop _ (s.keys ['*'] (Clock.still t)).2 1 _ _).1 = _
  rw [hk]
  exact PersistenceManager.saveLoop_still t _ 1 _ (listed_live h t)

/-- Extraction for a rewrite touches every key listed, and its lines are those of the
live cells. -/
theorem rewriteCommands_still : AofWriter.rewriteCommands s (Clocks.still t) =
    (touchAll (listed t s) (s.keys ['*'] (Clock.still t)).1,
      AofWriter.linesOf t (fun k => liveAt t (s.cell k)) (listed t s)) := by
  have hk : (s.keys ['*'] (Clock.still t)).2 = listed t s := (keys_still h ['*'] t).2
  show AofWriter.rewriteLoop _ (s.keys ['*'] (Clock.still t)).2 1
    (s.keys ['*'] (Clock.still t)).1 = _
  rw [hk, AofWriter.rewriteLoop_still t _ 1 (listed_live h t), funext (keys_still_store h t _).2.1]

theorem readOut_touchAll :
    ReadOut t s (touchAll (listed t s) (s.keys ['*'] (Clock.still t)).1) := by
  obtain ⟨hL, hcell, horder⟩ := keys_still_store h t ['*']
  have hmax : (s.keys ['*'] (Clock.still t)).1.maxKeys = s.maxKeys :=
    (h.decays_keys (T := fun _ => True) ['*'] fun _ => trivial).maxKeys
  refine ⟨lockstep_touchAll _ hL fun k hk => (listed_live h t k hk).1, ?_, fun k => ?_, ?_⟩
  · rw [touchAll_eq]
    exact hmax
  · rw [cell_touchAll, hcell]
  · rw [order_touchAll _ _ (listed_nodup t s), horder, List.filter_filter]
    exact congrArg _ (List.filter_congr fun k _ => Bool.and_comm ..)

end

end MiniStore
