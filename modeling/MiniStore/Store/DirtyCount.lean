import MiniStore.Store.Snapshot

/-!
# dirtyCount

Which steps increase `dirtyCount`. It never decreases (`dirtyCount_le_run`), and an
operation that leaves it alone leaves the cells alone, unless it creates a key
without counting it: a push does, where nothing has to be removed first
(`counted_iff`). An extraction that leaves it alone describes the store
(`extract_of_dirtyCount`).
-/

namespace MiniStore

open InMemoryStore

/-! ## Removals count -/

namespace InMemoryStore

theorem dirtyCount_removeKey {s : InMemoryStore} {k : Str} (hk : s.cell k ≠ none) :
    (s.removeKey k).dirtyCount = s.dirtyCount + 1 := by
  unfold removeKey
  rw [if_pos (has_iff_cell.mpr hk)]
  rfl

theorem dirtyCount_le_removeKey (s : InMemoryStore) (k : Str) :
    s.dirtyCount ≤ (s.removeKey k).dirtyCount := by
  unfold removeKey
  split
  · exact Nat.le_succ _
  · exact Nat.le_refl _

theorem dirtyCount_purge (s : InMemoryStore) (key : Str) (t : Int) :
    s.dirtyCount ≤ (s.purge key t).dirtyCount ∧
      ((s.purge key t).dirtyCount = s.dirtyCount → liveAt t (s.cell key) = s.cell key) := by
  rcases expireIfNeeded_cases s key t with ⟨-, hp, hl⟩ | ⟨-, hp, c, hc, -⟩
  · rw [hp]; exact ⟨Nat.le_refl _, fun _ => hl⟩
  · have h1 : (s.purge key t).dirtyCount = s.dirtyCount + 1 := by
      rw [hp]; exact dirtyCount_removeKey (by simp [hc])
    exact ⟨by omega, fun e => by omega⟩

theorem Lockstep.dirtyCount_reserveSlotFor {s : InMemoryStore} (h : s.Lockstep) (key : Str)
    (t : Int) : s.dirtyCount ≤ (s.reserveSlotFor key t).dirtyCount ∧
      ((s.reserveSlotFor key t).dirtyCount = s.dirtyCount →
        s.cell key ≠ none ∨ s.size < s.maxKeys) := by
  rcases h.reserveSlotFor_cases key t with ⟨hv, e⟩ | ⟨v, -, hv, e⟩
  · rw [e]
    refine ⟨Nat.le_refl _, fun _ => ?_⟩
    have hroom : (!s.values.has key && decide (s.values.size ≥ s.maxKeys)) = false := by
      refine (h.has_or_lt key).mpr ?_
      exact (LruCache.victim_eq_none s.maxKeys_pos).mp hv
    simp only [Bool.and_eq_false_iff, Bool.not_eq_false', decide_eq_false_iff_not] at hroom
    exact hroom.imp has_iff_cell.mp Nat.lt_of_not_le
  · have hd := dirtyCount_removeKey (has_iff_cell.mp hv)
    have h1 : (s.reserveSlotFor key t).dirtyCount = s.dirtyCount + 1 := by
      rw [e]; split <;> exact hd
    exact ⟨by omega, fun e => by omega⟩

/-! ## Effects -/

/-- The effect increases the counter on its own account. -/
def Effect.counted : Effect → Bool
  | .put _ _ counted => counted
  | .remove => true
  | _ => false

def Effect.Counts (e : Effect) (c : Option Cell) : Prop :=
  e.counted = true ∨ e.action.onCell c = c

theorem Lockstep.dirtyCount_commit {s : InMemoryStore} (h : s.Lockstep) (key : Str) (t : Int)
    {e : Effect} (hf : e.Fits (s.cell key)) :
    s.dirtyCount ≤ (s.commit key t e).dirtyCount ∧
      ((s.commit key t e).dirtyCount = s.dirtyCount →
        e.counted = false ∧ (s.cell key ≠ none ∨ s.size < s.maxKeys ∨ e = .keep)) := by
  cases e with
  | keep => exact ⟨Nat.le_refl _, fun _ => ⟨rfl, .inr (.inr rfl)⟩⟩
  | touch => exact ⟨Nat.le_refl _, fun _ => ⟨rfl, .inl hf⟩⟩
  | remove =>
    have h1 : (s.commit key t .remove).dirtyCount = s.dirtyCount + 1 := dirtyCount_removeKey hf
    exact ⟨by omega, fun e => by omega⟩
  | put v d counted =>
    obtain ⟨h1, h2⟩ := h.dirtyCount_reserveSlotFor key t
    cases counted with
    | true =>
      have h3 : (s.commit key t (.put v d true)).dirtyCount =
          (s.reserveSlotFor key t).dirtyCount + 1 := rfl
      exact ⟨by omega, fun e => by omega⟩
    | false =>
      have h3 : (s.commit key t (.put v d false)).dirtyCount =
          (s.reserveSlotFor key t).dirtyCount := rfl
      refine ⟨by omega, fun e => ⟨rfl, ?_⟩⟩
      exact (h2 (by omega)).imp_right .inl

/-- An effect that does not show in the counter, but counts, changes nothing. -/
theorem Lockstep.cell_commit_of_dirtyCount {s : InMemoryStore} (h : s.Lockstep) {key : Str} {t : Int}
    {e : Effect} (hf : e.Fits (s.cell key)) (hc : e.Counts (s.cell key))
    (hd : (s.commit key t e).dirtyCount = s.dirtyCount) (k : Str) :
    (s.commit key t e).cell k = s.cell k := by
  obtain ⟨hn, hroom⟩ := (h.dirtyCount_commit key t hf).2 hd
  have hon : e.action.onCell (s.cell key) = s.cell key := by
    rcases hc with hc | hc
    · rw [hn] at hc; cases hc
    · exact hc
  rcases hroom with hr | hr | rfl
  · rw [h.cell_commit_of_room t (.inl hr)]
    split
    · next e => rw [hon, e]
    · rfl
  · rw [h.cell_commit_of_room t (.inr hr)]
    split
    · next e => rw [hon, e]
    · rfl
  · rfl

/-! ## Dropping keys -/

theorem dirtyCount_keysLoop (test : Str → Bool) (now : Clock) : ∀ (ks : List Str) (i : Nat)
    (s : InMemoryStore), s.dirtyCount ≤ (keysLoop test now ks i s).1.dirtyCount ∧
      ((keysLoop test now ks i s).1.dirtyCount = s.dirtyCount →
        keysLoop test now ks i s = (s, ks.filter test))
  | [], _, _ => ⟨Nat.le_refl _, fun _ => rfl⟩
  | key :: ks, i, s => by
    obtain ⟨h1, h2⟩ := dirtyCount_purge s key (now i)
    obtain ⟨h3, h4⟩ := dirtyCount_keysLoop test now ks (i + 1) (s.purge key (now i))
    have hfst : (keysLoop test now (key :: ks) i s).1 =
        (keysLoop test now ks (i + 1) (s.purge key (now i))).1 := rfl
    rw [hfst]
    refine ⟨by omega, fun e => ?_⟩
    have hp : s.purge key (now i) = s := purge_of_live (h2 (by omega))
    have hgate : s.expireIfNeeded key (now i) = (s, false) := by
      rcases s.expireIfNeeded_cases key (now i) with ⟨he, -, -⟩ | ⟨-, -, c, hc, hx⟩
      · exact he
      · have hl := h2 (by omega)
        rw [hc, liveAt_some, if_pos hx] at hl
        cases hl
    rw [hp] at e h4
    rw [keysLoop, hgate]
    simp only [h4 e, List.filter_cons, Bool.not_false, Bool.true_and]

theorem dirtyCount_foldl_drop : ∀ (ks : List Str) {s : InMemoryStore}, s.Lockstep →
    s.dirtyCount ≤ (ks.foldl InMemoryStore.drop s).dirtyCount ∧
      ((ks.foldl InMemoryStore.drop s).dirtyCount = s.dirtyCount →
        ∀ k, (ks.foldl InMemoryStore.drop s).cell k = s.cell k)
  | [], _, _ => ⟨Nat.le_refl _, fun _ _ => rfl⟩
  | key :: ks, s, h => by
    obtain ⟨h1, h2⟩ := dirtyCount_foldl_drop ks (h.drop key)
    have h3 : s.dirtyCount ≤ (s.drop key).dirtyCount := dirtyCount_le_removeKey s key
    rw [List.foldl_cons]
    refine ⟨by omega, fun e k => ?_⟩
    have hn : s.cell key = none := by
      by_cases hc : s.cell key = none
      · exact hc
      · have h4 : (s.drop key).dirtyCount = s.dirtyCount + 1 := dirtyCount_removeKey hc
        omega
    rw [h2 (by omega), h.cell_drop]
    split
    · next ek => rw [ek, hn]
    · rfl

end InMemoryStore

/-! ## Operations -/

/-- The operation creates its key, given its cell, without counting it. -/
def Op.uncounted : Op → Option Cell → Bool
  | lpush .., none | rpush .., none => true
  | hset _ pairs, none => pairs.isEmpty
  | _, _ => false

/-- The operation creates its key, and nothing is removed for it. -/
def Op.createsUncounted (s : InMemoryStore) : Op → Bool
  | lpush key _ | rpush key _ => (s.cell key).isNone && decide (s.size < s.maxKeys)
  | hset key pairs => pairs.isEmpty && (s.cell key).isNone && decide (s.size < s.maxKeys)
  | _ => false

section

variable {s : InMemoryStore} {now : Clock} {op : Op} {key : Str} {f : Option Cell → Effect}

theorem counts_readCell {α β : Type} {payload : StoredValue → Option β} {absent : α}
    {read : β → α} (c : Option Cell) : (readCell payload absent read c).1.Counts c := by
  cases c with
  | none => exact .inr rfl
  | some c => simp only [readCell]; split <;> exact .inr rfl

theorem counts_popCell {take : List Str → Option Str × List Str} (c : Option Cell) :
    (popCell take c).1.Counts c := by
  rcases c with _ | ⟨_ | l | _, d⟩
  · exact .inr rfl
  · exact .inr rfl
  · simp only [popCell]; split <;> exact .inl rfl
  · exact .inr rfl

theorem Op.effect_counts (he : op.effect now = some (key, f)) {c : Option Cell}
    (hu : op.uncounted c = false) : (f c).Counts c := by
  cases op with
  | get => cases he; rcases c with _ | ⟨_ | _ | _, _⟩ <;> exact .inr rfl
  | set => cases he; exact .inl rfl
  | del => cases he; cases c; exacts [.inr rfl, .inl rfl]
  | expire => cases he; cases c; exacts [.inr rfl, .inl rfl]
  | «exists» | keyType => cases he; exact .inr rfl
  | ttl => cases he; rcases c with _ | ⟨_, _ | _⟩ <;> exact .inr rfl
  | persist => cases he; rcases c with _ | ⟨_, _ | _⟩; exacts [.inr rfl, .inr rfl, .inl rfl]
  | lpush | rpush =>
    cases he
    rcases c with _ | ⟨_ | l | _, d⟩
    · cases hu
    · exact .inr rfl
    · exact .inl rfl
    · exact .inr rfl
  | lpop | rpop => cases he; exact counts_popCell c
  | hset key pairs =>
    cases he
    rcases c with _ | ⟨_ | _ | m, d⟩
    · cases pairs with
      | nil => cases hu
      | cons p ps => exact .inl rfl
    · exact .inr rfl
    · exact .inr rfl
    · cases pairs with
      | nil => exact .inr rfl
      | cons p ps => exact .inl rfl
  | hdel key fields =>
    cases he
    rcases c with _ | ⟨_ | _ | m, d⟩
    · exact .inr rfl
    · exact .inr rfl
    · exact .inr rfl
    · simp only [hdelCell]
      split
      · exact .inl rfl
      · split
        · exact .inl rfl
        · exact .inr rfl
  | lrange | llen | hget | hgetall | hlen => cases he; exact counts_readCell c
  | keys => cases he
  | sweepExpired => cases he

theorem dirtyCount_le_run (h : s.Lockstep) (op : Op) (now : Clock) :
    s.dirtyCount ≤ (op.run s now).1.dirtyCount := by
  cases he : op.effect now with
  | some e =>
    obtain ⟨key, f⟩ := e
    have hp := h.purge key (now 0)
    rw [Op.run_effect h he]
    have h1 := (dirtyCount_purge s key (now 0)).1
    have h2 := (hp.dirtyCount_commit key (now 1) (Op.effect_fits he _)).1
    omega
  | none =>
    cases op with
    | keys pattern => exact (dirtyCount_keysLoop _ now _ 0 s).1
    | sweepExpired n =>
      show s.dirtyCount ≤ (s.sweepExpired n now).1.dirtyCount
      rw [sweepExpired_fst]
      exact (dirtyCount_foldl_drop _ (h.sample n (now 0))).1
    | _ => cases he

/-- The cell that decides is the one before the gate: a key that is due counts. -/
theorem uncounted_purge (h : s.Lockstep) (he : op.effect now = some (key, f))
    (hl : liveAt (now 0) (s.cell key) = s.cell key) (hroom : s.cell key ≠ none ∨ s.size < s.maxKeys)
    (hc : op.createsUncounted s = false) : op.uncounted ((s.purge key (now 0)).cell key) = false := by
  rw [h.cell_purge_self, hl]
  cases op with
  | lpush | rpush =>
    cases he
    simp only [Op.createsUncounted, Bool.and_eq_false_iff, decide_eq_false_iff_not] at hc
    cases hx : s.cell key with
    | some c => rfl
    | none => rcases hc with hc | hc <;> simp_all
  | hset =>
    cases he
    simp only [Op.createsUncounted, Bool.and_eq_false_iff, decide_eq_false_iff_not] at hc
    cases hx : s.cell key with
    | some c => rfl
    | none => rcases hc with (hc | hc) | hc <;> simp_all [Op.uncounted]
  | _ => cases hx : s.cell key <;> rfl

theorem cell_run_of_dirtyCount (h : s.Lockstep) (hc : op.createsUncounted s = false)
    (hd : (op.run s now).1.dirtyCount = s.dirtyCount) (k : Str) :
    (op.run s now).1.cell k = s.cell k := by
  cases he : op.effect now with
  | some e =>
    obtain ⟨key, f⟩ := e
    have hfit := Op.effect_fits he (s.cell key)
    obtain ⟨h1, h2⟩ := dirtyCount_purge s key (now 0)
    have hrun := Op.run_effect h he
    rw [hrun] at hd ⊢
    have h3 := ((h.purge key (now 0)).dirtyCount_commit key (now 1) (Op.effect_fits he _)).1
    have hl := h2 (by omega)
    have hp : s.purge key (now 0) = s := purge_of_live hl
    have hu : s.cell key ≠ none ∨ s.size < s.maxKeys →
        op.uncounted ((s.purge key (now 0)).cell key) = false :=
      fun hr => uncounted_purge h he hl hr hc
    rw [hp] at hd hu ⊢
    obtain ⟨-, hroom⟩ := (h.dirtyCount_commit key (now 1) hfit).2 hd
    refine h.cell_commit_of_dirtyCount hfit ?_ hd k
    rcases hroom with hr | hr | hk
    · exact Op.effect_counts he (hu (.inl hr))
    · exact Op.effect_counts he (hu (.inr hr))
    · rw [hk]; exact .inr rfl
  | none =>
    cases op with
    | keys pattern =>
      have h1 : (s.keys pattern now).1.dirtyCount = s.dirtyCount := hd
      have := (dirtyCount_keysLoop (globMatch pattern) now s.values.keys 0 s).2 h1
      show (keysLoop (globMatch pattern) now s.values.keys 0 s).1.cell k = s.cell k
      rw [this]
    | sweepExpired n =>
      have h1 : (s.sweepExpired n now).1.dirtyCount = s.dirtyCount := hd
      show (s.sweepExpired n now).1.cell k = s.cell k
      rw [sweepExpired_fst] at h1 ⊢
      have := (dirtyCount_foldl_drop _ (h.sample n (now 0))).2 h1 k
      rw [this, cell_sample]
    | _ => cases he

theorem run_of_createsUncounted (h : s.Lockstep) (hc : op.createsUncounted s = true) :
    (op.run s now).1.dirtyCount = s.dirtyCount ∧ ∃ k, (op.run s now).1.cell k ≠ s.cell k := by
  have key_new : ∀ {key : Str} {f : Option Cell → Effect}, op.effect now = some (key, f) →
      s.cell key = none → s.size < s.maxKeys → (∃ v, f none = .put v none false) →
      (op.run s now).1.dirtyCount = s.dirtyCount ∧ ∃ k, (op.run s now).1.cell k ≠ s.cell k := by
    rintro key f he hn hr ⟨v, hv⟩
    have hp : s.purge key (now 0) = s := purge_of_live (by rw [hn]; rfl)
    rw [Op.run_effect h he, hp, hn, hv]
    refine ⟨?_, key, ?_⟩
    · show (s.reserveSlotFor key (now 1)).dirtyCount = s.dirtyCount
      have hs : ¬(s.values.size ≥ s.maxKeys) := Nat.not_le_of_lt hr
      simp [reserveSlotFor, hs]
    · rw [h.cell_commit_self, hn]
      exact Option.some_ne_none _
  cases op with
  | lpush key values | rpush key values =>
    simp only [Op.createsUncounted, Bool.and_eq_true, Option.isNone_iff_eq_none,
      decide_eq_true_eq] at hc
    exact key_new rfl hc.1 hc.2 ⟨_, rfl⟩
  | hset key pairs =>
    simp only [Op.createsUncounted, Bool.and_eq_true, Option.isNone_iff_eq_none,
      decide_eq_true_eq, List.isEmpty_iff] at hc
    obtain ⟨⟨rfl, hn⟩, hr⟩ := hc
    exact key_new rfl hn hr ⟨_, rfl⟩
  | _ => cases hc

/-- An operation that changes the contents counts, exactly if it is no uncounted creation. -/
theorem counted_iff (h : s.Lockstep) (op : Op) (now : Clock) :
    ((∃ k, (op.run s now).1.cell k ≠ s.cell k) →
        s.dirtyCount < (op.run s now).1.dirtyCount) ↔ op.createsUncounted s = false := by
  have hle := dirtyCount_le_run h op now
  constructor
  · intro hi
    cases hc : op.createsUncounted s with
    | false => rfl
    | true =>
      obtain ⟨hd, hk⟩ : (op.run s now).1.dirtyCount = s.dirtyCount ∧
          ∃ k, (op.run s now).1.cell k ≠ s.cell k := run_of_createsUncounted h hc
      have := hi hk
      omega
  · rintro hc ⟨k, hk⟩
    refine Nat.lt_of_le_of_ne hle fun hd => ?_
    exact hk (cell_run_of_dirtyCount h hc hd.symm k)

end

/-! ## Extraction -/

namespace PersistenceManager

theorem dirtyCount_read {α : Type} {s : InMemoryStore} (key : Str) (now : Clock)
    {f : Option Cell → Effect × α} (hr : ∀ c, (f c).1 = .keep ∨ (f c).1 = .touch) :
    s.dirtyCount ≤ (s.perform key now f).1.dirtyCount ∧
      ((s.perform key now f).1.dirtyCount = s.dirtyCount →
        liveAt (now 0) (s.cell key) = s.cell key) := by
  have hp := dirtyCount_purge s key (now 0)
  have he : (s.perform key now f).1.dirtyCount = (s.purge key (now 0)).dirtyCount := by
    unfold perform
    rcases hr ((s.purge key (now 0)).cell key) with e | e <;> simp only [e] <;> rfl
  rw [he]
  exact hp

theorem dirtyCount_keyType (s : InMemoryStore) (key : Str) (now : Clock) :
    s.dirtyCount ≤ (s.keyType key now).1.dirtyCount ∧
      ((s.keyType key now).1.dirtyCount = s.dirtyCount →
        liveAt (now 0) (s.cell key) = s.cell key) := by
  rw [keyType_eq]
  exact dirtyCount_read key now fun _ => .inl rfl

theorem dirtyCount_ttl (s : InMemoryStore) (key : Str) (now : Clock) :
    s.dirtyCount ≤ (s.ttl key now).1.dirtyCount ∧
      ((s.ttl key now).1.dirtyCount = s.dirtyCount → liveAt (now 0) (s.cell key) = s.cell key) := by
  rw [ttl_eq]
  exact dirtyCount_read key now (reads_ttlCell (now 1))

theorem dirtyCount_readValue {s : InMemoryStore} (key : Str) (now : Clock) (type : ValueType) :
    s.dirtyCount ≤ (readValue s key now type).1.dirtyCount ∧
      ((readValue s key now type).1.dirtyCount = s.dirtyCount →
        liveAt (now 0) (s.cell key) = s.cell key) := by
  obtain ⟨_, f, -, hreads, e⟩ := readValue_reads s key now type
  rw [e]
  exact dirtyCount_read key now hreads

theorem dirtyCount_le_saveKey (clocks : Clocks) (i : Nat) (key : Str) (s : InMemoryStore)
    (dump : Dump) : s.dirtyCount ≤ (saveKey clocks i key s dump).1.dirtyCount := by
  have h1 := (dirtyCount_keyType s key (clocks i)).1
  unfold saveKey
  rcases hk : s.keyType key (clocks i) with ⟨s1, _ | type⟩
  · rw [hk] at h1; exact h1
  · rw [hk] at h1
    have h2 := (dirtyCount_readValue (s := s1) key (clocks (i + 1)) type).1
    simp only
    rcases hv : readValue s1 key (clocks (i + 1)) type with ⟨s2, _ | value⟩
    · rw [hv] at h2; exact Nat.le_trans h1 h2
    · rw [hv] at h2
      have h3 := (dirtyCount_ttl s2 key (clocks (i + 2))).1
      exact Nat.le_trans h1 (Nat.le_trans h2 h3)

/-- If extracting a key does not count, the key was live at every look. -/
theorem live_of_saveKey {clocks : Clocks} {i : Nat} {key : Str} {s : InMemoryStore} {dump : Dump}
    (hne : s.cell key ≠ none) (hd : (saveKey clocks i key s dump).1.dirtyCount = s.dirtyCount) :
    ∀ j < 3, liveAt (clocks (i + j) 0) (s.cell key) = s.cell key := by
  obtain ⟨c, hc⟩ := Option.ne_none_iff_exists'.mp hne
  -- the counter after each of the three reads
  obtain ⟨h1, l1⟩ := dirtyCount_keyType s key (clocks i)
  obtain ⟨h2, l2⟩ := dirtyCount_readValue (s := s) key (clocks (i + 1)) c.value.type
  obtain ⟨h3, l3⟩ := dirtyCount_ttl (s.touch key) key (clocks (i + 2))
  have ht : (s.touch key).dirtyCount = s.dirtyCount := rfl
  have hlive0 : liveAt (clocks i 0) (s.cell key) = s.cell key := by
    refine l1 (Nat.le_antisymm ?_ h1)
    rw [← hd]
    unfold saveKey
    rcases hk : s.keyType key (clocks i) with ⟨s1, _ | type⟩
    · exact Nat.le_refl _
    · have h4 := (dirtyCount_readValue (s := s1) key (clocks (i + 1)) type).1
      simp only
      rcases hv : readValue s1 key (clocks (i + 1)) type with ⟨s2, _ | value⟩
      · rw [hv] at h4; exact h4
      · rw [hv] at h4
        exact Nat.le_trans h4 (dirtyCount_ttl s2 key (clocks (i + 2))).1
  have hkt : s.keyType key (clocks i) = (s, some c.value.type) := by
    rw [keyType_eq, perform_of_live hlive0, hc]; rfl
  have hlive1 : liveAt (clocks (i + 1) 0) (s.cell key) = s.cell key := by
    refine l2 (Nat.le_antisymm ?_ h2)
    conv_rhs => rw [← hd]
    unfold saveKey
    simp only [hkt]
    rcases hv : readValue s key (clocks (i + 1)) c.value.type with ⟨s2, _ | value⟩
    · exact Nat.le_refl _
    · exact (dirtyCount_ttl s2 key (clocks (i + 2))).1
  have hlive2 : liveAt (clocks (i + 2) 0) (s.cell key) = s.cell key := by
    refine l3 ?_
    rw [ht, ← hd]
    unfold saveKey
    simp only [hkt, readValue_live hc hlive1]
  intro j hj
  have hcases : j = 0 ∨ j = 1 ∨ j = 2 := by omega
  rcases hcases with rfl | rfl | rfl
  · exact hlive0
  · exact hlive1
  · exact hlive2

theorem dirtyCount_saveLoop (clocks : Clocks) : ∀ (keys : List Str) (i : Nat) {s : InMemoryStore}
    (dump : Dump), s.Lockstep →
      s.dirtyCount ≤ (saveLoop clocks keys i s dump).1.dirtyCount ∧
      ((saveLoop clocks keys i s dump).1.dirtyCount = s.dirtyCount → (∀ k ∈ keys, s.cell k ≠ none) →
        Undisturbed clocks s keys i)
  | [], _, _, _, _ => ⟨Nat.le_refl _, fun _ _ => trivial⟩
  | key :: keys, i, s, dump, h => by
    have hL : (saveKey clocks i key s dump).1.Lockstep :=
      (decays_saveKey (T := fun _ => True) h (fun _ _ => trivial) i key dump).lockstep
    obtain ⟨h1, h2⟩ := dirtyCount_saveLoop clocks keys (i + 3) (saveKey clocks i key s dump).2 hL
    have h3 := dirtyCount_le_saveKey clocks i key s dump
    have e : saveLoop clocks (key :: keys) i s dump =
        saveLoop clocks keys (i + 3) (saveKey clocks i key s dump).1
          (saveKey clocks i key s dump).2 := rfl
    rw [e]
    refine ⟨Nat.le_trans h3 h1, fun hd hne => ?_⟩
    have hkey := hne key List.mem_cons_self
    have hd' : (saveKey clocks i key s dump).1.dirtyCount = s.dirtyCount := by omega
    have hl := live_of_saveKey hkey hd'
    obtain ⟨c, hc⟩ := Option.ne_none_iff_exists'.mp hkey
    have hs : (saveKey clocks i key s dump).1 = s.touch key := by rw [saveKey_live hc hl]
    have hcell : ∀ k, s.cell k = (saveKey clocks i key s dump).1.cell k := fun k => by rw [hs]; rfl
    refine ⟨⟨hkey, hl⟩, Undisturbed.congr hcell (h2 (by omega) fun k hk => ?_)⟩
    rw [← hcell]
    exact hne k (List.mem_cons_of_mem _ hk)

/-- Extraction never decreases the counter, and if it leaves it alone, then it also
leaves the cells alone and the dump describes them. -/
theorem extract_of_dirtyCount (clocks : Clocks) {s : InMemoryStore} (h : s.Lockstep)
    (hone : ∀ k, s.cell k ≠ none → OneLine k) :
    s.dirtyCount ≤ (extract s clocks).1.dirtyCount ∧
      ((extract s clocks).1.dirtyCount = s.dirtyCount →
        (∀ k, (extract s clocks).1.cell k = s.cell k) ∧
          Describes clocks.Reads s.cell (extract s clocks).2) := by
  obtain ⟨h1, h2⟩ := dirtyCount_keysLoop (globMatch ['*']) (clocks 0) s.values.keys 0 s
  have hL : (s.keys ['*'] (clocks 0)).1.Lockstep :=
    (h.decays_keys (T := fun _ => True) ['*'] fun _ => trivial).lockstep
  obtain ⟨h3, h4⟩ := dirtyCount_saveLoop clocks (s.keys ['*'] (clocks 0)).2 1 PlainObject.empty hL
  refine ⟨Nat.le_trans h1 h3, fun hd => ?_⟩
  have hd' : (saveLoop clocks (s.keys ['*'] (clocks 0)).2 1 (s.keys ['*'] (clocks 0)).1
      PlainObject.empty).1.dirtyCount = s.dirtyCount := hd
  have hkd : (keysLoop (globMatch ['*']) (clocks 0) s.values.keys 0 s).1.dirtyCount = s.dirtyCount :=
    Nat.le_antisymm (hd' ▸ h3) h1
  have hkeys : s.keys ['*'] (clocks 0) = (s, s.values.keys.filter (globMatch ['*'])) := h2 hkd
  have hmem : ∀ k, k ∈ s.values.keys ↔ s.cell k ≠ none := fun k => by
    rw [OrdMap.mem_keys_iff_has, has_iff_cell]
  have hu : Undisturbed clocks s (s.values.keys.filter (globMatch ['*'])) 1 := by
    rw [hkeys] at h4 hd'
    exact h4 hd' fun k hk => (hmem k).mp (List.mem_filter.mp hk).1
  have hall : ∀ k, s.cell k ≠ none → k ∈ s.values.keys.filter (globMatch ['*']) := fun k hk =>
    List.mem_filter.mpr ⟨(hmem k).mpr hk, (globMatch_star k).mpr (hone k hk)⟩
  have hdesc := describes_saveLoop h hu hall
  have hkeep := (saveLoop_spec clocks _ 1 PlainObject.empty h hu).1
  unfold extract
  rw [hkeys]
  exact ⟨hkeep, hdesc⟩

end PersistenceManager

end MiniStore
