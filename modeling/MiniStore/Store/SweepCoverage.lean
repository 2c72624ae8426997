import MiniStore.Lib.RoundRobin
import MiniStore.Store.Lockstep

/-!
# The sweep passes over no key forever

A tick of the sweep examines the keys of one turn of the cursor and removes those that are due.
As long as it finds none the array stands still, and the turns go round it
(`InMemoryStore.idle`); so in as many ticks as make up a round every tracked key is examined or
some key is removed before (`exists_reclaim`). Each removal leaves one key less that is due
(`sweep_reclaims`).
-/

namespace MiniStore

open RoundRobin

namespace ExpiryManager

def size (t : ExpiryManager) : Nat := t.raw.expiresAt.size

namespace Raw

/-- The place the sampling begins at. -/
def start (t : Raw) : Nat := if t.cursor ≥ t.keys.length then 0 else t.cursor

def expiredAt (t : Raw) (now : Int) (places : List Nat) : List Str :=
  (places.filterMap fun i => t.keys[i]?).filter fun k => t.isExpired k now

variable {t : Raw} {now : Int}

theorem start_lt (h : 0 < t.keys.length) : t.start < t.keys.length := by
  unfold start
  split <;> omega

theorem start_eq_mod (hc : t.cursor ≤ t.keys.length) : t.start = t.cursor % t.keys.length := by
  unfold start
  split
  · next h => rw [Nat.le_antisymm hc h, Nat.mod_self]
  · next h => rw [Nat.mod_eq_of_lt (by omega)]

theorem expiredAt_cons (i : Nat) (places : List Nat) :
    t.expiredAt now (i :: places) = t.expiredAt now [i] ++ t.expiredAt now places := by
  simp only [expiredAt, ← List.filter_append, ← List.filterMap_append, List.singleton_append]

theorem collectLoop_succ (k : Nat) (acc : List Str) :
    collectLoop now (k + 1) t acc =
      collectLoop now k { t with cursor := t.start + 1 } (acc ++ t.expiredAt now [t.start]) := by
  rw [collectLoop]
  refine congrArg (collectLoop now k { t with cursor := t.start + 1 }) ?_
  cases hk : t.keys[t.start]? with
  | none =>
    unfold start at hk ⊢
    simp [expiredAt, hk]
  | some key =>
    unfold start at hk ⊢
    cases hx : t.isExpired key now <;> simp [expiredAt, hk, hx]

theorem collectLoop_window (hn : 0 < t.keys.length) : ∀ (k cursor : Nat) (acc : List Str),
    cursor ≤ t.keys.length → ∃ c,
      collectLoop now k { t with cursor := cursor } acc =
        ({ t with cursor := c }, acc ++ t.expiredAt now (window t.keys.length cursor k)) ∧
      c % t.keys.length = (cursor + k) % t.keys.length
  | 0, cursor, acc, _ => ⟨cursor, by simp [collectLoop, expiredAt, window], rfl⟩
  | k + 1, cursor, acc, hc => by
    have hs : ({ t with cursor := cursor } : Raw).start = cursor % t.keys.length := start_eq_mod hc
    have hlt : cursor % t.keys.length < t.keys.length := Nat.mod_lt _ hn
    obtain ⟨c, hloop, hcur⟩ := collectLoop_window hn k (cursor % t.keys.length + 1)
      (acc ++ t.expiredAt now [cursor % t.keys.length]) hlt
    refine ⟨c, ?_, ?_⟩
    · rw [collectLoop_succ, hs]
      refine hloop.trans ?_
      rw [List.append_assoc, window_succ, ← expiredAt_cons, window_congr (Nat.mod_add_mod ..)]
    · rw [hcur, Nat.add_assoc, Nat.mod_add_mod, Nat.add_comm 1 k]

/-- A sample is what is expired of one turn, and the cursor goes on behind it. -/
theorem collectExpired_window (hn : 0 < t.keys.length) {sampleSize : Nat} (hs : 1 ≤ sampleSize) :
    t.collectExpired now sampleSize =
      ({ t with cursor := (t.start + min sampleSize t.keys.length) % t.keys.length },
        t.expiredAt now (window t.keys.length t.start (min sampleSize t.keys.length))) := by
  obtain ⟨k, hk⟩ : ∃ k, min sampleSize t.keys.length = k + 1 :=
    ⟨_, (Nat.sub_add_cancel (by omega)).symm⟩
  have hlt := start_lt hn
  have hstart : ({ t with cursor := t.start } : Raw).start = t.start :=
    (start_eq_mod (Nat.le_of_lt hlt)).trans (Nat.mod_eq_of_lt hlt)
  -- the first step puts the cursor back into the array
  have hback : collectLoop now (k + 1) t [] =
      collectLoop now (k + 1) { t with cursor := t.start } [] := by
    rw [collectLoop_succ, collectLoop_succ, hstart]
    rfl
  obtain ⟨c, hloop, hcur⟩ := collectLoop_window hn (k + 1) t.start [] (Nat.le_of_lt hlt)
  unfold collectExpired
  simp only
  rw [if_neg (by omega), Int.toNat_natCast, hk, hback, hloop, hcur, List.nil_append]

theorem mem_expiredAt {places : List Nat} {k : Str} : k ∈ t.expiredAt now places ↔
    (∃ i ∈ places, t.keys[i]? = some k) ∧ t.isExpired k now = true := by
  rw [expiredAt, List.mem_filter, List.mem_filterMap]

theorem WF.nodup_expiredAt (h : t.WF) {places : List Nat} (hp : places.Nodup) :
    (t.expiredAt now places).Nodup :=
  (hp.filterMap fun _ _ _ hi hj => h.indexed.inj hi hj).filter _

theorem WF.nodup_collectExpired (h : t.WF) (now limit : Int) :
    (t.collectExpired now limit).2.Nodup := by
  by_cases hgo : t.keys.length = 0 ∨ limit ≤ 0
  · have hnil : t.collectExpired now limit = (t, []) := if_pos hgo
    rw [hnil]
    exact List.nodup_nil
  · obtain ⟨n, rfl⟩ : ∃ n : Nat, limit = n := ⟨limit.toNat, by omega⟩
    rw [collectExpired_window (by omega) (by omega)]
    exact h.nodup_expiredAt (nodup_window (Nat.min_le_right ..))

theorem WF.perm (h : t.WF) : t.expiresAt.keys.Perm t.keys :=
  (List.perm_ext_iff_of_nodup (OrdMap.keys_nodup _) h.indexed.nodup).mpr fun k => by
    rw [h.mem, OrdMap.mem_keys_iff_has]

theorem length_expiredAt_le (places : List Nat) :
    (t.expiredAt now places).length ≤ places.length :=
  Nat.le_trans (List.length_filter_le ..) (List.length_filterMap_le ..)

/-- `t'` is `t` with the cursor moved on by a number of places. -/
structure Turned (places : Nat) (t t' : Raw) : Prop where
  expiresAt : t'.expiresAt = t.expiresAt
  keys : t'.keys = t.keys
  start : t'.start = (t.start + places) % t.keys.length

theorem Turned.refl (hn : 0 < t.keys.length) : Turned 0 t t :=
  ⟨rfl, rfl, (Nat.mod_eq_of_lt (start_lt hn)).symm⟩

theorem Turned.trans {t' t'' : Raw} {a b : Nat} (h : Turned a t t') (h' : Turned b t' t'') :
    Turned (a + b) t t'' := by
  refine ⟨h'.expiresAt.trans h.expiresAt, h'.keys.trans h.keys, ?_⟩
  rw [h'.start, h.start, h.keys, Nat.mod_add_mod, Nat.add_assoc]

theorem turned_collectExpired (hn : 0 < t.keys.length) {sampleSize : Nat} (hs : 1 ≤ sampleSize) :
    Turned (min sampleSize t.keys.length) t (t.collectExpired now sampleSize).1 := by
  rw [collectExpired_window hn hs]
  refine ⟨rfl, rfl, ?_⟩
  exact (start_eq_mod (Nat.le_of_lt (Nat.mod_lt _ hn))).trans (Nat.mod_mod ..)

theorem Turned.expiredAt {t' : Raw} {a k : Nat} (h : Turned a t t') :
    t'.expiredAt now (window t'.keys.length t'.start k) =
      t.expiredAt now (window t.keys.length (t.start + a) k) := by
  have hx : ∀ key, t'.isExpired key now = t.isExpired key now := fun key => by
    rw [isExpired, h.expiresAt, ← isExpired]
  simp only [Raw.expiredAt, hx, h.start, h.keys, window_congr (Nat.mod_mod ..)]

end Raw

variable (t : ExpiryManager) (now : Int) {sampleSize : Nat} (hs : 1 ≤ sampleSize)

theorem mem_keys {k : Str} : k ∈ t.raw.keys ↔ ∃ d, t.deadline k = some d := by
  rw [t.wf.mem, ← Option.isSome_iff_exists]
  rfl

theorem length_keys : t.raw.keys.length = t.size := by
  rw [size, ← OrdMap.length_keys]
  exact t.wf.perm.length_eq.symm

include hs

theorem sample_eq (hn : 0 < t.raw.keys.length) : (t.collectExpired now sampleSize).2 =
    t.raw.expiredAt now
      (window t.raw.keys.length t.raw.start (min sampleSize t.raw.keys.length)) :=
  congrArg Prod.snd (Raw.collectExpired_window hn hs)

theorem sample_bounded : (t.collectExpired now sampleSize).2.Nodup ∧
    (t.collectExpired now sampleSize).2.length ≤ sampleSize := by
  refine ⟨t.wf.nodup_collectExpired now sampleSize, ?_⟩
  rcases Nat.eq_zero_or_pos t.raw.keys.length with hn | hn
  · have hnil : t.raw.collectExpired now sampleSize = (t.raw, []) := if_pos (.inl hn)
    show (t.raw.collectExpired now sampleSize).2.length ≤ sampleSize
    rw [hnil]
    exact Nat.zero_le _
  · rw [sample_eq t now hs hn]
    refine Nat.le_trans (Raw.length_expiredAt_le _) ?_
    rw [length_window]
    exact Nat.min_le_left ..

end ExpiryManager

namespace InMemoryStore

/-! ## One tick -/

def tick (sampleSize : Nat) (t : Int) (s : InMemoryStore) : InMemoryStore :=
  (s.sweepExpired sampleSize (Clock.still t)).1

/-- A sweep of `s` at `t` that gives `p` removed the keys `removed`: these were due, each is
removed and reported once, and the others stay as and where they were. -/
structure Reclaims (sampleSize : Nat) (t : Int) (s : InMemoryStore) (removed : List Str)
    (p : InMemoryStore × Nat) : Prop where
  expired : ∀ k ∈ removed, s.cell k ≠ none ∧ s.expiry.isExpired k t = true
  once : removed.Nodup
  bounded : removed.length ≤ sampleSize
  number : p.2 = removed.length
  cell : ∀ k, p.1.cell k = if k ∈ removed then none else s.cell k
  deadline : ∀ k, p.1.expiry.deadline k = if k ∈ removed then none else s.expiry.deadline k
  order : p.1.lru.order = s.lru.order.filter fun k => k ∉ removed
  keys : p.1.values.keys = s.values.keys.filter fun k => k ∉ removed
  notified : p.1.notified = s.notified ++ removed.map .expired

theorem Lockstep.stored_of_expired {s : InMemoryStore} (h : s.Lockstep) {k : Str} {t : Int}
    (hk : s.expiry.isExpired k t = true) : s.cell k ≠ none := by
  obtain ⟨d, hd, -⟩ := (ExpiryManager.isExpired_eq ..).mp hk
  exact has_iff_cell.mp (h.deadlines k d hd)

section

variable {s : InMemoryStore} (h : s.Lockstep) (t : Int) {sampleSize : Nat} (hs : 1 ≤ sampleSize)

include h

theorem Lockstep.tick : (s.tick sampleSize t).Lockstep := by
  rw [InMemoryStore.tick, sweepExpired_fst]
  exact ((h.sample sampleSize t).dropped _).lockstep

include hs

theorem Lockstep.reclaims : Reclaims sampleSize t s (s.expiry.collectExpired t sampleSize).2
    (s.sweepExpired sampleSize (Clock.still t)) := by
  have hdrop := (h.sample sampleSize t).dropped (s.expiry.collectExpired t sampleSize).2
  obtain ⟨honce, hbound⟩ := s.expiry.sample_bounded t hs
  refine ⟨fun k hk => ?_, honce, hbound, rfl, fun k => ?_, fun k => ?_, hdrop.order, hdrop.keys,
    hdrop.notified⟩
  · have hx := ExpiryManager.collectExpired_expired _ _ _ k hk
    exact ⟨h.stored_of_expired hx, hx⟩
  · rw [sweepExpired_fst, ← cell_sample s sampleSize t]
    exact hdrop.cell k
  · rw [sweepExpired_fst]
    refine (hdrop.deadline k).trans ?_
    show (if _ then none else (s.expiry.collectExpired t sampleSize).1.deadline k) = _
    rw [ExpiryManager.deadline_collectExpired]

omit h

/-! ## Ticks that remove nothing -/

theorem turned_tick (hn : 0 < s.expiry.raw.keys.length)
    (hnone : (s.expiry.collectExpired t sampleSize).2 = []) :
    ExpiryManager.Raw.Turned (min sampleSize s.expiry.raw.keys.length) s.expiry.raw
      (s.tick sampleSize t).expiry.raw := by
  have htick : s.tick sampleSize t = s.sample sampleSize t := by
    rw [InMemoryStore.tick, sweepExpired_fst]
    show (s.expiry.collectExpired t sampleSize).2.foldl _ _ = _
    rw [hnone]
    rfl
  rw [htick]
  exact ExpiryManager.Raw.turned_collectExpired hn hs

/-- As long as the ticks find nothing, the turns follow each other round the array. -/
theorem idle (hn : 0 < s.expiry.raw.keys.length) {m : Nat}
    (hnone : ∀ i < m, (((tick sampleSize t)^[i] s).expiry.collectExpired t sampleSize).2 = []) :
    ExpiryManager.Raw.Turned (m * min sampleSize s.expiry.raw.keys.length) s.expiry.raw
      ((tick sampleSize t)^[m] s).expiry.raw := by
  induction m with
  | zero =>
    rw [Nat.zero_mul]
    exact .refl hn
  | succ m ih =>
    have hpast := ih fun i hi => hnone i (Nat.lt_succ_of_lt hi)
    have hnext := turned_tick t hs (hpast.keys ▸ hn) (hnone m (Nat.lt_succ_self m))
    rw [Function.iterate_succ_apply', Nat.succ_mul]
    rw [hpast.keys] at hnext
    exact hpast.trans hnext

/-- In the ticks that make up a round one finds a key, if there is one to be found. -/
theorem exists_reclaim {k : Str} (hk : s.expiry.isExpired k t = true) :
    ∃ i < s.expiry.size ⌈/⌉ sampleSize,
      (((tick sampleSize t)^[i] s).expiry.collectExpired t sampleSize).2 ≠ [] := by
  by_contra hno
  have hnone : ∀ i < s.expiry.size ⌈/⌉ sampleSize,
      (((tick sampleSize t)^[i] s).expiry.collectExpired t sampleSize).2 = [] :=
    fun i hi => by_contra fun hne => hno ⟨i, hi, hne⟩
  obtain ⟨d, hd, -⟩ := (ExpiryManager.isExpired_eq ..).mp hk
  obtain ⟨p, hp⟩ := List.mem_iff_getElem?.mp (s.expiry.mem_keys.mpr ⟨d, hd⟩)
  have hplt := (List.getElem?_eq_some_iff.mp hp).1
  have hn : 0 < s.expiry.raw.keys.length := Nat.lt_of_le_of_lt (Nat.zero_le p) hplt
  have hround : s.expiry.raw.keys.length ≤
      s.expiry.size ⌈/⌉ sampleSize * min sampleSize s.expiry.raw.keys.length := by
    rw [ExpiryManager.length_keys]
    exact le_turns hs _
  obtain ⟨i, hi, hturn⟩ := exists_turn s.expiry.raw.start hplt hround
  have hpast := idle t hs hn fun j hj => hnone j (Nat.lt_trans hj hi)
  have hfound : k ∈ (((tick sampleSize t)^[i] s).expiry.collectExpired t sampleSize).2 := by
    rw [ExpiryManager.sample_eq _ t hs (hpast.keys ▸ hn), hpast.expiredAt, hpast.keys]
    exact ExpiryManager.Raw.mem_expiredAt.mpr ⟨⟨p, hturn, hp⟩, hk⟩
  rw [hnone i hi] at hfound
  exact absurd hfound List.not_mem_nil

end

/-! ## All the ticks -/

def expiredKeys (t : Int) (s : InMemoryStore) : List Str :=
  s.lru.order.filter fun k => s.expiry.isExpired k t

def dueCount (t : Int) (s : InMemoryStore) : Nat := (s.expiredKeys t).length

/-- A store in lockstep that tracks at most `n` keys. -/
structure Tracks (n : Nat) (s : InMemoryStore) : Prop where
  lockstep : s.Lockstep
  size_le : s.expiry.size ≤ n

section

variable {s : InMemoryStore} {t : Int} {sampleSize : Nat}

theorem Reclaims.deadline_some {removed : List Str} {p : InMemoryStore × Nat}
    (h : Reclaims sampleSize t s removed p) {k : Str} {d : Int} :
    p.1.expiry.deadline k = some d ↔ k ∉ removed ∧ s.expiry.deadline k = some d := by
  rw [h.deadline]
  by_cases hk : k ∈ removed <;> simp [hk]

theorem Reclaims.isExpired {removed : List Str} {p : InMemoryStore × Nat}
    (h : Reclaims sampleSize t s removed p) (k : Str) :
    p.1.expiry.isExpired k t = (decide (k ∉ removed) && s.expiry.isExpired k t) := by
  rw [Bool.eq_iff_iff, Bool.and_eq_true, decide_eq_true_iff, ExpiryManager.isExpired_eq,
    ExpiryManager.isExpired_eq]
  simp only [h.deadline_some, and_assoc, exists_and_left]

/-- Of the keys that are due a sweep leaves those it did not remove. -/
theorem Reclaims.expiredKeys {removed : List Str} {p : InMemoryStore × Nat}
    (h : Reclaims sampleSize t s removed p) :
    p.1.expiredKeys t = (s.expiredKeys t).filter fun k => k ∉ removed := by
  rw [InMemoryStore.expiredKeys, InMemoryStore.expiredKeys, h.order, List.filter_filter,
    List.filter_filter]
  refine List.filter_congr fun k _ => ?_
  rw [h.isExpired, Bool.and_right_comm, Bool.and_self]

theorem Reclaims.size_le {removed : List Str} {p : InMemoryStore × Nat}
    (h : Reclaims sampleSize t s removed p) : p.1.expiry.size ≤ s.expiry.size := by
  rw [← ExpiryManager.length_keys, ← ExpiryManager.length_keys]
  refine (p.1.expiry.wf.indexed.nodup.subperm fun k hk => ?_).length_le
  obtain ⟨d, hd⟩ := (ExpiryManager.mem_keys _).mp hk
  exact (ExpiryManager.mem_keys _).mpr ⟨d, (h.deadline_some.mp hd).2⟩

theorem Reclaims.dueCount_le {removed : List Str} {p : InMemoryStore × Nat}
    (h : Reclaims sampleSize t s removed p) : p.1.dueCount t ≤ s.dueCount t := by
  rw [dueCount, h.expiredKeys]
  exact List.length_filter_le ..

theorem dueCount_le (t : Int) (s : InMemoryStore) : s.dueCount t ≤ s.expiry.size := by
  rw [← ExpiryManager.length_keys]
  refine ((s.lru.nodup_order.filter _).subperm fun k hk => ?_).length_le
  obtain ⟨d, hd, -⟩ := (ExpiryManager.isExpired_eq ..).mp (List.mem_filter.mp hk).2
  exact (ExpiryManager.mem_keys _).mpr ⟨d, hd⟩

theorem Lockstep.mem_expiredKeys (h : s.Lockstep) {k : Str} :
    k ∈ s.expiredKeys t ↔ s.expiry.isExpired k t = true := by
  rw [expiredKeys, List.mem_filter, and_iff_right_iff_imp]
  exact fun hk => (h.tracked k).mpr (has_iff_cell.mpr (h.stored_of_expired hk))

/-- Fewer keys are due after a tick that finds one. -/
theorem Lockstep.dueCount_lt (h : s.Lockstep) (hs : 1 ≤ sampleSize)
    (hne : (s.expiry.collectExpired t sampleSize).2 ≠ []) :
    (s.tick sampleSize t).dueCount t < s.dueCount t := by
  have hr := h.reclaims t hs
  obtain ⟨k, hk⟩ := List.exists_mem_of_ne_nil _ hne
  have hleft : (s.tick sampleSize t).expiredKeys t = _ := hr.expiredKeys
  rw [dueCount, hleft]
  refine List.length_filter_lt_length_iff_exists.mpr ⟨k, ?_, by simpa using hk⟩
  exact h.mem_expiredKeys.mpr (hr.expired k hk).2

theorem Tracks.tick {n : Nat} (h : Tracks n s) (hs : 1 ≤ sampleSize) :
    Tracks n (s.tick sampleSize t) :=
  ⟨h.lockstep.tick t, Nat.le_trans (h.lockstep.reclaims t hs).size_le h.size_le⟩

/-- Of as many ticks as make up a round of `n` keys one finds a key. -/
theorem Tracks.progress {n : Nat} (h : Tracks n s) (hs : 1 ≤ sampleSize) {k : Str}
    (hk : s.expiry.isExpired k t = true) : ∃ i < n ⌈/⌉ sampleSize,
      (((InMemoryStore.tick sampleSize t)^[i] s).expiry.collectExpired t sampleSize).2 ≠ [] := by
  obtain ⟨i, hi, hne⟩ := exists_reclaim t hs hk
  have hmono := (gc_mul_ceilDiv (Nat.lt_of_lt_of_le Nat.one_pos hs)).monotone_l h.size_le
  exact ⟨i, Nat.lt_of_lt_of_le hi hmono, hne⟩

theorem Tracks.drained {n m : Nat} (h : Tracks n s) (hs : 1 ≤ sampleSize)
    (hm : n * (n ⌈/⌉ sampleSize) ≤ m) :
    ((InMemoryStore.tick sampleSize t)^[m] s).dueCount t = 0 := by
  have hkeeps : ∀ s', Tracks n s' → Tracks n (s'.tick sampleSize t) := fun _ h' => h'.tick hs
  have hfalls : ∀ s', Tracks n s' → (s'.tick sampleSize t).dueCount t ≤ s'.dueCount t :=
    fun _ h' => (h'.lockstep.reclaims t hs).dueCount_le
  have hstart : s.dueCount t * (n ⌈/⌉ sampleSize) ≤ m :=
    Nat.le_trans (Nat.mul_le_mul_right _ ((dueCount_le t s).trans h.size_le)) hm
  refine drains hkeeps hfalls (fun s' h' hpos => ?_) h hstart
  obtain ⟨k, hk⟩ := List.exists_mem_of_length_pos hpos
  obtain ⟨i, hi, hne⟩ := h'.progress hs (h'.lockstep.mem_expiredKeys.mp hk)
  refine ⟨i + 1, hi, ?_⟩
  rw [Function.iterate_succ_apply']
  exact Nat.lt_of_lt_of_le ((iterate_keeps hkeeps h' i).lockstep.dueCount_lt hs hne)
    (iterate_le hkeeps hfalls h' i)

end

/-- For every store in lockstep, wherever its cursor is, every clock that stands still and every
sample size: as long as a tracked key is due, one of any `⌈n / sampleSize⌉` ticks removes a key,
where `n` keys carry deadlines; after `n * ⌈n / sampleSize⌉` ticks no key is due. Each tick
removes keys that are due, each once and no more than `sampleSize`, answers their number and
leaves the other keys, their deadlines and their order alone. -/
theorem sweep_reclaims {s : InMemoryStore} (h : s.Lockstep) (t : Int) {sampleSize : Nat}
    (hs : 1 ≤ sampleSize) :
    (∀ j k, ((tick sampleSize t)^[j] s).expiry.isExpired k t = true →
      ∃ i < s.expiry.size ⌈/⌉ sampleSize, ∃ key,
        ((tick sampleSize t)^[j + i] s).cell key ≠ none ∧
          ((tick sampleSize t)^[j + i + 1] s).cell key = none) ∧
    (∀ m, s.expiry.size * (s.expiry.size ⌈/⌉ sampleSize) ≤ m →
      ∀ k, ((tick sampleSize t)^[m] s).expiry.isExpired k t = false) ∧
    ∀ j, ∃ removed, Reclaims sampleSize t ((tick sampleSize t)^[j] s) removed
      (((tick sampleSize t)^[j] s).sweepExpired sampleSize (Clock.still t)) := by
  have htracks : Tracks s.expiry.size s := ⟨h, Nat.le_refl _⟩
  have hreach := iterate_keeps (fun _ h' => Tracks.tick (t := t) h' hs) htracks
  refine ⟨fun j k hk => ?_, fun m hm k => ?_, fun j => ⟨_, (hreach j).lockstep.reclaims t hs⟩⟩
  · obtain ⟨i, hi, hne⟩ := (hreach j).progress hs hk
    obtain ⟨key, hkey⟩ := List.exists_mem_of_ne_nil _ hne
    rw [← Function.iterate_add_apply, Nat.add_comm i j] at hkey
    have hr := (hreach (j + i)).lockstep.reclaims t hs
    refine ⟨i, hi, key, (hr.expired key hkey).1, ?_⟩
    rw [Function.iterate_succ_apply']
    exact (hr.cell key).trans (if_pos hkey)
  · refine Bool.eq_false_iff.mpr fun hk => ?_
    have hmem := (hreach m).lockstep.mem_expiredKeys.mpr hk
    exact absurd (htracks.drained hs hm) (Nat.ne_of_gt (List.length_pos_of_mem hmem))

/-- Two keys that are due, behind one that is not. -/
def dueBehind : InMemoryStore :=
  runAll (create 3 (Nat.succ_pos 2)) [(.set ['a'] ['x'] (some 9), Clock.still 0),
    (.set ['b'] ['x'] (some 1), Clock.still 0), (.set ['c'] ['x'] (some 1), Clock.still 0)]

theorem sweep_reclaims_behind :
    (∃ i < 3, ∃ key, ((tick 1 2000)^[0 + i] dueBehind).cell key ≠ none ∧
      ((tick 1 2000)^[0 + i + 1] dueBehind).cell key = none) ∧
      ((tick 1 2000)^[9] dueBehind).expiry.isExpired ['c'] 2000 = false := by
  have h : dueBehind.Lockstep := (lockstep_create 3 (Nat.succ_pos 2)).runAll _
  have hall := sweep_reclaims h 2000 (Nat.le_refl 1)
  exact ⟨hall.1 0 ['c'] (by decide), hall.2.1 9 (by decide) ['c']⟩

end InMemoryStore

end MiniStore
