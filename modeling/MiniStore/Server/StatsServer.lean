import MiniStore.Store.KeysMRU

/-!
# StatsServer

The snapshot of the store that the dashboard shows. It is built in a loop over
`InMemoryStore.keysMRU`, so it ends at the first expired key (`buildSnapshot_still`), and
`size` is read after the loop.
-/

namespace MiniStore

open InMemoryStore

/-- An entry of `Snapshot.keys`. -/
structure KeyStat where
  name : Str
  type : ValueType
  ttl : Int
  deriving DecidableEq

structure Snapshot where
  size : Nat
  maxKeys : Nat
  evictions : Nat
  keys : List KeyStat
  recentActivity : List Str
  deriving DecidableEq

namespace StatsServer

/-- The loop body of `#buildSnapshot`: the entries it pushes for a key. -/
def snapshotKey (clocks : Clocks) (i : Nat) (key : Str) (s : InMemoryStore) :
    InMemoryStore × List KeyStat :=
  match s.keyType key (clocks (i + 1)) with
  | (s, type) =>
    match s.ttl key (clocks (i + 2)) with
    | (s, ttl) =>
      match type with
      | none => (s, [])
      | some type => (s, [⟨key, type, ttl⟩])

/-- `recentActivity` is what the command handler has. -/
def buildSnapshot (s : InMemoryStore) (recentActivity : List Str) (clocks : Clocks) :
    Option (InMemoryStore × Snapshot) :=
  (s.forKeysMRU clocks (snapshotKey clocks)).map fun (s, keys) =>
    (s, ⟨s.size, s.maxKeys, s.evictionCount, keys, recentActivity⟩)

def liveKeys (s : InMemoryStore) (t : Int) : List Str := s.lru.order.filter (s.live t)

/-- The entry of a key that holds `c`. -/
def keyStat (t : Int) (key : Str) (c : Cell) : KeyStat :=
  ⟨key, c.value.type, (ttlCell t (some c)).2⟩

def stats (s : InMemoryStore) (t : Int) (key : Str) : List KeyStat :=
  (s.cell key).toList.map (keyStat t key)

theorem snapshotKey_still {s : InMemoryStore} {t : Int} (i : Nat) {key : Str}
    (hl : s.live t key = true) :
    snapshotKey (Clocks.still t) i key s = (s, stats s t key) := by
  obtain ⟨c, hc, he⟩ := live_iff.mp hl
  have hlive : liveAt t (s.cell key) = s.cell key := by
    rw [hc, liveAt_some, he]
    rfl
  have hkeep : (ttlCell t (some c)).1 = .keep := by
    obtain ⟨v, _ | d⟩ := c <;> rfl
  have htype : s.keyType key (Clock.still t) = (s, some c.value.type) := by
    rw [keyType_eq, PersistenceManager.perform_of_live hlive, hc]
    rfl
  have httl : s.ttl key (Clock.still t) = (s, (ttlCell t (some c)).2) := by
    rw [ttl_eq, PersistenceManager.perform_of_live hlive, hc]
    simp only [Clock.still, hkeep]
    rfl
  simp only [snapshotKey, Clocks.still, htype, httl, stats, hc]
  rfl

theorem buildSnapshot_still {s : InMemoryStore} (h : s.Lockstep) (recentActivity : List Str)
    (t : Int) : buildSnapshot s recentActivity (Clocks.still t) =
      some (s.afterMRU t s.lru.order,
        ⟨(s.afterMRU t s.lru.order).size, (s.afterMRU t s.lru.order).maxKeys,
          (s.afterMRU t s.lru.order).evictionCount,
          (s.lru.order.takeWhile (s.live t)).flatMap (stats s t), recentActivity⟩) := by
  have hloop : s.forKeysMRU (Clocks.still t) (snapshotKey (Clocks.still t)) =
      some (s.afterMRU t s.lru.order, (s.lru.order.takeWhile (s.live t)).flatMap (stats s t)) :=
    forKeysMRU_still h fun i _ hl => snapshotKey_still i hl
  rw [buildSnapshot, hloop]
  rfl

/-- A key that is live gets one entry, under its name. -/
theorem name_stats (s : InMemoryStore) (t : Int) : ∀ {ks : List Str},
    (∀ k ∈ ks, s.live t k = true) → (ks.flatMap (stats s t)).map KeyStat.name = ks
  | [], _ => rfl
  | k :: ks, hk => by
    obtain ⟨c, hc, -⟩ := live_iff.mp (hk k List.mem_cons_self)
    rw [List.flatMap_cons, List.map_append,
      name_stats s t fun j hj => hk j (List.mem_cons_of_mem _ hj)]
    simp [stats, hc, keyStat]

/-- The generator yields the live keys, each once and in order, and nothing else. -/
def YieldsLive (s : InMemoryStore) (t : Int) : Prop :=
  ∃ s', s.keysMRU (Clocks.still t) = some (s', liveKeys s t)

/-- The snapshot lists the live keys, and its size is their number. -/
def ShowsLive (s : InMemoryStore) (t : Int) : Prop :=
  ∀ recentActivity, ∃ s' snapshot,
    buildSnapshot s recentActivity (Clocks.still t) = some (s', snapshot) ∧
      snapshot.keys.map KeyStat.name = liveKeys s t ∧ snapshot.size = snapshot.keys.length

section

variable {s : InMemoryStore} {t : Int}

theorem yieldsLive_iff (h : s.Lockstep) : YieldsLive s t ↔
    s.lru.order.Pairwise fun j k => s.live t k = true → s.live t j = true := by
  rw [YieldsLive, keysMRU_still h, liveKeys, ← takeWhile_eq_filter_iff]
  constructor
  · rintro ⟨s', e⟩
    exact congrArg Prod.snd (Option.some.inj e)
  · intro e
    exact ⟨_, by rw [e]⟩

theorem showsLive_iff (h : s.Lockstep) : ShowsLive s t ↔
    s.lru.order.takeWhile (s.live t) = liveKeys s t ∧
      (s.afterMRU t s.lru.order).size = (s.lru.order.takeWhile (s.live t)).length := by
  have hname : ((s.lru.order.takeWhile (s.live t)).flatMap (stats s t)).map KeyStat.name =
      s.lru.order.takeWhile (s.live t) := name_stats s t fun _ hk => List.mem_takeWhile_imp hk
  have hlength := congrArg List.length hname
  rw [List.length_map] at hlength
  unfold ShowsLive
  simp only [buildSnapshot_still h, Option.some.injEq, Prod.mk.injEq]
  constructor
  · intro hs
    obtain ⟨s', snapshot, ⟨-, rfl⟩, hkeys, hsize⟩ := hs []
    exact ⟨hname.symm.trans hkeys, hsize.trans hlength⟩
  · rintro ⟨hkeys, hsize⟩ recentActivity
    exact ⟨_, _, ⟨rfl, rfl⟩, hname.trans hkeys, hsize.trans hlength.symm⟩

/-- What is taken is all but one key, at the end, or everything. -/
theorem shows_iff_dropLast (h : s.Lockstep) :
    (s.lru.order.takeWhile (s.live t) = liveKeys s t ∧
        (s.afterMRU t s.lru.order).size = (s.lru.order.takeWhile (s.live t)).length) ↔
      ∀ k ∈ s.lru.order.dropLast, s.live t k = true := by
  rw [h.size_afterMRU, liveKeys]
  generalize s.lru.order = l
  rcases List.eq_nil_or_concat l with rfl | ⟨init, k, rfl⟩
  · simp
  rw [List.concat_eq_append, List.dropLast_concat]
  constructor
  · rintro ⟨-, hsize⟩
    -- of `init ++ [k]` all but one are taken, so all of `init` is
    have hpre : (init ++ [k]).takeWhile (s.live t) <+: init ++ [k] := List.takeWhile_prefix _
    have hlen : init.length ≤ ((init ++ [k]).takeWhile (s.live t)).length := by
      rw [← hsize]
      split <;> simp
    intro j hj
    have hinit : init <+: (init ++ [k]).takeWhile (s.live t) :=
      List.prefix_of_prefix_length_le (List.prefix_append _ _) hpre hlen
    exact List.mem_takeWhile_imp (hinit.subset hj)
  · intro hinit
    have htake : ∀ l, (init ++ l).takeWhile (s.live t) = init ++ l.takeWhile (s.live t) :=
      fun l => List.takeWhile_append_of_pos hinit
    have hfilter : (init ++ [k]).filter (s.live t) = init ++ [k].filter (s.live t) := by
      rw [List.filter_append, List.filter_eq_self.mpr hinit]
    rw [htake, hfilter]
    have hall : (init ++ [k]).all (s.live t) = s.live t k := by
      rw [List.all_append, List.all_eq_true.mpr hinit]
      simp
    rw [hall]
    cases hk : s.live t k <;> simp [hk]

end

/-- For every store and every clock held still: `keysMRU` yields exactly the live keys, from
the most to the least recently used, exactly if no live key is less recently used than an
expired one; and it does so with the snapshot showing exactly them and their number, exactly
if no key but the least recently used is expired. -/
theorem keysMRU_iff (s : InMemoryStore) (h : s.Lockstep) (t : Int) :
    (YieldsLive s t ↔
        s.lru.order.Pairwise fun j k => s.live t k = true → s.live t j = true) ∧
      (YieldsLive s t ∧ ShowsLive s t ↔ ∀ k ∈ s.lru.order.dropLast, s.live t k = true) := by
  refine ⟨yieldsLive_iff h, ?_⟩
  rw [← shows_iff_dropLast h, showsLive_iff h]
  refine and_iff_right_of_imp fun hs => ?_
  rw [yieldsLive_iff h, ← takeWhile_eq_filter_iff]
  exact hs.1

def endsExpired : InMemoryStore :=
  runAll (create 2 Nat.two_pos) [(.set ['a'] ['1'] (some 1), Clock.still 0),
    (.set ['b'] ['2'] none, Clock.still 0)]

theorem keysMRU_ends_expired : YieldsLive endsExpired 1000 ∧ ShowsLive endsExpired 1000 :=
  (keysMRU_iff endsExpired ((lockstep_create 2 (by decide)).runAll _) 1000).2.mpr (by decide)

def startsExpired : InMemoryStore :=
  runAll (create 2 Nat.two_pos) [(.set ['a'] ['1'] none, Clock.still 0),
    (.set ['b'] ['2'] (some 1), Clock.still 0)]

/-- The live key is neither yielded nor listed, and yet counted. -/
theorem keysMRU_stops_early :
    liveKeys startsExpired 1000 = [['a']] ∧
      (startsExpired.keysMRU (Clocks.still 1000)).map Prod.snd = some [] ∧
      (buildSnapshot startsExpired [] (Clocks.still 1000)).map Prod.snd =
        some ⟨1, 2, 0, [], []⟩ ∧
      ¬ (YieldsLive startsExpired 1000 ∧ ShowsLive startsExpired 1000) := by
  have hkeys : (startsExpired.keysMRU (Clocks.still 1000)).map Prod.snd = some [] := by decide
  have hlive : liveKeys startsExpired 1000 = [['a']] := by decide
  refine ⟨hlive, hkeys, by decide, ?_⟩
  rintro ⟨⟨s', e⟩, -⟩
  rw [e, hlive] at hkeys
  cases hkeys

end StatsServer

end MiniStore
