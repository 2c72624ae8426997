import MiniStore.Store.Snapshot

/-!
# Restoring more keys than fit

`restore` inserts with the ordinary operations, and each of them reserves a slot. The count it
returns is kept apart: one for every entry that is not skipped (`restoreLoop_run`). So the count
is the size of the store, and every entry is there, exactly if there is a slot for each
(`restore_iff`).
-/

namespace MiniStore

open InMemoryStore

/-- The entry is not skipped. -/
def SerializedKey.lasting (e : SerializedKey) : Bool := !e.ttl.any fun ttl => ttl ≤ 0

def SerializedValue.Means : SerializedValue → StoredValue → Prop
  | .string v, .string v' => v = v'
  | .list l, .list l' => l = l'
  | .hash obj, .hash m => ∀ f, m.get? f = obj.get? f
  | _, _ => False

namespace PersistenceManager

/-- The entries that `restore` does not skip. -/
def restorable (dump : Dump) : List (Str × SerializedKey) :=
  dump.entries.filter fun p => p.2.lasting

/-- Every entry that is not skipped is in the store, live at `t`, with its kind and value. -/
def AllPresent (dump : Dump) (t : Int) (s : InMemoryStore) : Prop :=
  ∀ k e, dump.get? k = some e → e.lasting = true →
    ∃ c, s.cell k = some c ∧ c.expired t = false ∧ e.value.Means c.value

/-! ## A restore is a run of operations -/

section

variable (clocks : Clocks) {s : InMemoryStore}

theorem expireIfGiven_run (key : Str) (ttl : Option Int) (now : Clock) :
    ∃ ops, expireIfGiven s key ttl now = runAll s ops := by
  cases ttl with
  | none => exact ⟨[], rfl⟩
  | some n => exact ⟨[(.expire key n.toNat, now)], rfl⟩

theorem restoreKey_run (i : Nat) (key : Str) (e : SerializedKey) :
    (restoreKey clocks i key e s).2 = e.lasting ∧
      ∃ ops, (restoreKey clocks i key e s).1 = runAll s ops := by
  unfold restoreKey SerializedKey.lasting
  split
  · next hskip => exact ⟨by rw [hskip]; rfl, [], rfl⟩
  · next hskip =>
    rw [Bool.not_eq_true] at hskip
    rw [hskip]
    cases e.value with
    | string value => exact ⟨rfl, [(.set key value (e.ttl.map Int.toNat), clocks i)], rfl⟩
    | list value =>
      obtain ⟨ops, hops⟩ := expireIfGiven_run (s := (s.rpush key value (clocks i)).1) key e.ttl
        (clocks (i + 1))
      exact ⟨rfl, (.rpush key value, clocks i) :: ops, hops⟩
    | hash obj =>
      obtain ⟨ops, hops⟩ := expireIfGiven_run (s := (s.hset key obj.entries (clocks i)).1) key e.ttl
        (clocks (i + 1))
      exact ⟨rfl, (.hset key obj.entries, clocks i) :: ops, hops⟩

/-- The count is that of the entries which are not skipped, whatever the store retains. -/
theorem restoreLoop_run : ∀ (es : List (Str × SerializedKey)) (i : Nat) (s : InMemoryStore) (n : Nat),
    (restoreLoop clocks es i s n).2 = n + (es.filter fun p => p.2.lasting).length ∧
      ∃ ops, (restoreLoop clocks es i s n).1 = runAll s ops
  | [], _, _, _ => ⟨rfl, [], rfl⟩
  | (key, e) :: es, i, s, n => by
    obtain ⟨hcount, ops, hops⟩ := restoreKey_run clocks (s := s) i key e
    obtain ⟨hcounts, more, hmore⟩ := restoreLoop_run es (i + 2) (restoreKey clocks i key e s).1
      (if (restoreKey clocks i key e s).2 then n + 1 else n)
    refine ⟨hcounts.trans ?_, ops ++ more, hmore.trans ?_⟩
    · rw [hcount, List.filter_cons]
      cases e.lasting with
      | false => rfl
      | true =>
        rw [if_pos rfl, if_pos rfl, List.length_cons]
        omega
    · rw [hops, runAll, runAll, runAll, List.foldl_append]

/-- At a clock that stands still the skipped entries make no difference. -/
theorem restoreLoop_filter (t : Int) : ∀ (es : List (Str × SerializedKey)) (i j : Nat)
    (s : InMemoryStore) (n : Nat), restoreLoop (Clocks.still t) es i s n =
      restoreLoop (Clocks.still t) (es.filter fun p => p.2.lasting) j s n
  | [], _, _, _, _ => rfl
  | (key, e) :: es, i, j, s, n => by
    rw [List.filter_cons]
    cases he : e.lasting with
    | false =>
      have hskip : restoreKey (Clocks.still t) i key e s = (s, false) := by
        rw [SerializedKey.lasting, Bool.not_eq_false'] at he
        rw [restoreKey, if_pos he]
      rw [if_neg Bool.false_ne_true, restoreLoop, hskip]
      exact restoreLoop_filter t es (i + 2) j s n
    | true =>
      have hsame : restoreKey (Clocks.still t) i key e s = restoreKey (Clocks.still t) j key e s :=
        rfl
      rw [if_pos rfl, restoreLoop, restoreLoop, hsame]
      exact restoreLoop_filter t es (i + 2) (j + 2) _ _

end

/-! ## When everything fits -/

theorem means_restoredValue (v : SerializedValue) : v.Means (restoredValue v) := by
  cases v with
  | string | list => rfl
  | hash obj => exact get?_setPairs_entries obj

theorem expired_restored {e : SerializedKey} (he : e.lasting = true) (t : Int) :
    (restored t e).expired t = false := by
  obtain ⟨value, ttl⟩ := e
  cases ttl with
  | none => rfl
  | some n =>
    have hpos : 0 < n := by simpa [SerializedKey.lasting] using he
    simp only [restored, Cell.expired, Option.map_some, decide_eq_false_iff_not]
    omega

theorem nodup_restorable (dump : Dump) : ((restorable dump).map Prod.fst).Nodup :=
  dump.nodup_entries.sublist (List.filter_sublist.map _)

theorem mem_restorable {dump : Dump} {k : Str} {e : SerializedKey} :
    (k, e) ∈ restorable dump ↔ dump.get? k = some e ∧ e.lasting = true := by
  rw [restorable, List.mem_filter, PlainObject.mem_entries]

section

variable (dump : Dump) (maxKeys : Nat) (hm : 1 ≤ maxKeys) (t : Int)

def restoredInto : InMemoryStore × Nat :=
  restoreLoop (Clocks.still t) dump.entries 0 (InMemoryStore.create maxKeys hm) 0

theorem restoredInto_snd : (restoredInto dump maxKeys hm t).2 = (restorable dump).length :=
  (restoreLoop_run _ dump.entries 0 _ 0).1.trans (Nat.zero_add _)

theorem restoredInto_size_le : (restoredInto dump maxKeys hm t).1.size ≤ maxKeys := by
  obtain ⟨ops, hops⟩ := (restoreLoop_run (Clocks.still t) dump.entries 0
    (InMemoryStore.create maxKeys hm) 0).2
  have h := (lockstep_create maxKeys hm).runAll ops
  have hmax := maxKeys_runAll (lockstep_create maxKeys hm) ops
  rw [restoredInto, hops]
  exact h.size_le.trans (Nat.le_of_eq hmax)

theorem AllPresent.length_le {dump : Dump} {t : Int} {s : InMemoryStore}
    (h : AllPresent dump t s) : (restorable dump).length ≤ s.size := by
  have hsub : ∀ k ∈ (restorable dump).map Prod.fst, k ∈ s.values.keys := by
    intro k hk
    obtain ⟨⟨k, e⟩, hm, rfl⟩ := List.mem_map.mp hk
    obtain ⟨hget, hlast⟩ := mem_restorable.mp hm
    obtain ⟨c, hc, -⟩ := h k e hget hlast
    exact mem_keys.mpr (by simp [hc])
  have := (List.subperm_of_subset (nodup_restorable dump) hsub).length_le
  rwa [List.length_map, OrdMap.length_keys] at this

theorem restoredInto_of_fits (hfit : (restorable dump).length ≤ maxKeys) :
    AllPresent dump t (restoredInto dump maxKeys hm t).1 ∧
      (restoredInto dump maxKeys hm t).1.size ≤ (restorable dump).length := by
  have hpos : ∀ p ∈ restorable dump, ∀ ttl ∈ p.2.ttl, 0 < ttl := by
    intro p hp ttl hn
    have hlast := (mem_restorable.mp hp).2
    simpa [SerializedKey.lasting, Option.mem_def.mp hn] using hlast
  obtain ⟨hlock, -, -, hnone, hcell⟩ := restoreLoop_spec (Clocks.still t) (restorable dump) 0 0
    (lockstep_create maxKeys hm) (nodup_restorable dump) (fun _ _ => rfl)
    (by rw [maxKeys_create]; exact (Nat.zero_add _).le.trans hfit) hpos
  have e : restoredInto dump maxKeys hm t =
      restoreLoop (Clocks.still t) (restorable dump) 0 (InMemoryStore.create maxKeys hm) 0 :=
    restoreLoop_filter t dump.entries 0 0 _ 0
  rw [e]
  refine ⟨fun k x hget hlast => ?_, ?_⟩
  · obtain ⟨now, ⟨i, j, rfl⟩, hc⟩ := hcell (k, x) (mem_restorable.mpr ⟨hget, hlast⟩)
    exact ⟨_, hc, expired_restored hlast t, means_restoredValue x.value⟩
  · have := hlock.size_le_of_subset (l := (restorable dump).map Prod.fst) fun k hk => by
      by_contra hmem
      exact hk (hnone k hmem)
    rwa [List.length_map] at this

theorem allPresent_iff : AllPresent dump t (restoredInto dump maxKeys hm t).1 ↔
    (restorable dump).length ≤ maxKeys :=
  ⟨fun h => h.length_le.trans (restoredInto_size_le dump maxKeys hm t),
    fun h => (restoredInto_of_fits dump maxKeys hm t h).1⟩

theorem count_eq_size_iff : (restoredInto dump maxKeys hm t).2 =
    (restoredInto dump maxKeys hm t).1.size ↔ (restorable dump).length ≤ maxKeys := by
  rw [restoredInto_snd]
  constructor
  · exact fun h => h.le.trans (restoredInto_size_le dump maxKeys hm t)
  · intro h
    obtain ⟨hall, hsize⟩ := restoredInto_of_fits dump maxKeys hm t h
    exact Nat.le_antisymm hall.length_le hsize

end

/-- For every dump and every capacity: restored into an empty store with the clock held still,
every entry that is not skipped is there and the number returned is the size of the store,
exactly if the entries that are not skipped are no more than `maxKeys`. -/
theorem restore_iff (pm : PersistenceManager) (dump : Dump) (hd : pm.dumpFile = some dump)
    (maxKeys : Nat) (hm : 1 ≤ maxKeys) (t : Int) :
    AllPresent dump t (pm.restore (InMemoryStore.create maxKeys hm) (Clocks.still t)).2.1 ∧
        (pm.restore (InMemoryStore.create maxKeys hm) (Clocks.still t)).2.2 =
          (pm.restore (InMemoryStore.create maxKeys hm) (Clocks.still t)).2.1.size ↔
      (restorable dump).length ≤ maxKeys := by
  have e : (pm.restore (InMemoryStore.create maxKeys hm) (Clocks.still t)).2 =
      restoredInto dump maxKeys hm t := by
    simp only [restore, hd]
    rfl
  rw [e, allPresent_iff, count_eq_size_iff, and_self]

def twoKeys : Dump :=
  (PlainObject.empty.assign ['a'] ⟨.string ['1'], none⟩).assign ['b'] ⟨.string ['2'], none⟩

theorem restore_iff_fits : AllPresent twoKeys 0
      ((create (some twoKeys)).restore (InMemoryStore.create 2 Nat.two_pos) (Clocks.still 0)).2.1 ∧
    ((create (some twoKeys)).restore (InMemoryStore.create 2 Nat.two_pos) (Clocks.still 0)).2.2 =
      ((create (some twoKeys)).restore (InMemoryStore.create 2 Nat.two_pos) (Clocks.still 0)).2.1.size :=
  (restore_iff (create (some twoKeys)) twoKeys rfl 2 Nat.two_pos 0).mpr (by decide)

/-- With one slot the second entry evicts the first, and both are counted. -/
theorem restore_evicts :
    ((create (some twoKeys)).restore (InMemoryStore.create 1 Nat.one_pos) (Clocks.still 0)).2.2 = 2 ∧
      ((create (some twoKeys)).restore (InMemoryStore.create 1 Nat.one_pos)
        (Clocks.still 0)).2.1.values.keys = [['b']] ∧
      ¬ (AllPresent twoKeys 0 ((create (some twoKeys)).restore
            (InMemoryStore.create 1 Nat.one_pos) (Clocks.still 0)).2.1 ∧
          ((create (some twoKeys)).restore (InMemoryStore.create 1 Nat.one_pos)
            (Clocks.still 0)).2.2 =
              ((create (some twoKeys)).restore (InMemoryStore.create 1 Nat.one_pos)
                (Clocks.still 0)).2.1.size) := by
  have hcount : ((create (some twoKeys)).restore (InMemoryStore.create 1 Nat.one_pos)
      (Clocks.still 0)).2.2 = 2 := by decide
  have hkeys : ((create (some twoKeys)).restore (InMemoryStore.create 1 Nat.one_pos)
      (Clocks.still 0)).2.1.values.keys = [['b']] := by decide
  refine ⟨hcount, hkeys, fun h => ?_⟩
  have hsize := h.2
  rw [hcount, InMemoryStore.size, ← OrdMap.length_keys, hkeys] at hsize
  cases hsize

end PersistenceManager

end MiniStore
