import MiniStore.Store.DirtyCount
import Mathlib.Data.List.Infix

/-!
# Does the periodic save skip changes?

A store and its persistence manager as a state machine: operations of the store in
any order with saves that start, succeed and fail (`SaveStep`). A tick of the
interval either saves or, when the counter is the one of the last dump, does
nothing; the question is what the last dump holds then.

`Saves` is the invariant: the dump under way, and the dump on disk, describe the
store as long as its counter is the one captured for them.
-/

namespace MiniStore

open InMemoryStore

namespace PersistenceManager

/-- What happens to a store and its persistence manager. -/
inductive SaveStep where
  | op (op : Op) (now : Clock)
  | save (clocks : Clocks)
  | saveDone
  | saveFailed

def saveStep : InMemoryStore × PersistenceManager → SaveStep → InMemoryStore × PersistenceManager
  | (s, pm), .op op now => ((op.run s now).1, pm)
  | (s, pm), .save clocks => ((pm.save s clocks).2.1, (pm.save s clocks).1)
  | (s, pm), .saveDone => (s, pm.saveDone)
  | (s, pm), .saveFailed => (s, pm.saveFailed)

def saveRun (maxKeys : Nat) (hm : 1 ≤ maxKeys) (steps : List SaveStep) :
    InMemoryStore × PersistenceManager :=
  steps.foldl saveStep (InMemoryStore.create maxKeys hm, PersistenceManager.create none)

/-- `#checkAndSave` would not save. -/
def skips (st : InMemoryStore × PersistenceManager) : Prop :=
  st.1.dirtyCount = st.2.lastSavedDirtyCount

/-- A deadline is dumped as the seconds left of it at a time of `T`, rounded up. -/
def RoundedTtl (T : Int → Prop) : Option Int → Option Int → Prop
  | none, none => True
  | some d, some ttl => ∃ now, T now ∧ ttl = max 0 (ceilSeconds (max 0 (d - now)))
  | _, _ => False

/-- A key of the store and its entry in the dump. -/
def Dumped (T : Int → Prop) : Option Cell → Option SerializedKey → Prop
  | none, none => True
  | some c, some e => SameValue c.value (restoredValue e.value) ∧ RoundedTtl T c.deadline e.ttl
  | _, _ => False

/-- The readings of a save of the run; before there is a dump there are none. -/
def SaveReads (steps : List SaveStep) (T : Int → Prop) : Prop :=
  (∃ clocks, SaveStep.save clocks ∈ steps ∧ T = clocks.Reads) ∨ T = fun _ => False

/-- Every key is matched by `*`, and no key and no field of a hash is `__proto__`. -/
def PlainNames (s : InMemoryStore) : Prop :=
  ∀ k c, s.cell k = some c → OneLine k ∧ Representable k c

/-! ## The invariant -/

theorem Describes.congr {T : Int → Prop} {cells cells' : Str → Option Cell} {dump : Dump}
    (h : Describes T cells dump) (hc : ∀ k, cells' k = cells k) : Describes T cells' dump := by
  rwa [funext hc]

/-- As long as the counter of the store is `n`, the dump describes it, with the
`ttl`s read by one save. -/
structure Captured (R : (Int → Prop) → Prop) (s : InMemoryStore) (dump : Dump) (n : Nat) :
    Prop where
  le : n ≤ s.dirtyCount
  describes : s.dirtyCount = n → ∃ T, R T ∧ Describes T s.cell dump

/-- The invariant of a store and its persistence manager. -/
structure Saves (R : (Int → Prop) → Prop) (st : InMemoryStore × PersistenceManager) : Prop where
  lockstep : st.1.Lockstep
  saving : ∀ dump n, st.2.saving = some (dump, n) → Captured R st.1 dump n
  file : Captured R st.1 (st.2.dumpFile.getD PlainObject.empty) st.2.lastSavedDirtyCount

/-- A step that counts or changes nothing keeps the description. -/
theorem Captured.step {R R' : (Int → Prop) → Prop} {s s' : InMemoryStore} {dump : Dump} {n : Nat}
    (h : Captured R s dump n) (hR : ∀ T, R T → R' T) (hle : s.dirtyCount ≤ s'.dirtyCount)
    (hc : s'.dirtyCount = s.dirtyCount → ∀ k, s'.cell k = s.cell k) : Captured R' s' dump n := by
  have := h.le
  refine ⟨by omega, fun e => ?_⟩
  obtain ⟨T, hT, hd⟩ := h.describes (by omega)
  exact ⟨T, hR T hT, hd.congr (hc (by omega))⟩

theorem Saves.mono {R R' : (Int → Prop) → Prop} {st : InMemoryStore × PersistenceManager}
    (h : Saves R st) (hR : ∀ T, R T → R' T) : Saves R' st :=
  ⟨h.lockstep, fun dump n hd => (h.saving dump n hd).step hR (Nat.le_refl _) fun _ _ => rfl,
    h.file.step hR (Nat.le_refl _) fun _ _ => rfl⟩

theorem saves_create (maxKeys : Nat) (hm : 1 ≤ maxKeys) :
    Saves (SaveReads []) (InMemoryStore.create maxKeys hm, PersistenceManager.create none) where
  lockstep := lockstep_create maxKeys hm
  saving := fun _ _ h => nomatch h
  file := ⟨Nat.le_refl _, fun _ => ⟨_, .inr rfl, fun _ _ => rfl, fun _ _ h => nomatch h⟩⟩

section

variable {R : (Int → Prop) → Prop} {s : InMemoryStore} {pm : PersistenceManager}
  (h : Saves R (s, pm))

include h

theorem Saves.op {op : Op} {now : Clock} (hc : op.createsUncounted s = false) :
    Saves R ((op.run s now).1, pm) := by
  have hle := dirtyCount_le_run h.lockstep op now
  have hcell : (op.run s now).1.dirtyCount = s.dirtyCount →
      ∀ k, (op.run s now).1.cell k = s.cell k := cell_run_of_dirtyCount h.lockstep hc
  exact ⟨h.lockstep.run op now,
    fun dump n hd => (h.saving dump n hd).step (fun _ hT => hT) hle hcell,
    h.file.step (fun _ hT => hT) hle hcell⟩

theorem Saves.save {clocks : Clocks} (hone : ∀ k, s.cell k ≠ none → OneLine k) :
    Saves (fun T => R T ∨ T = clocks.Reads) ((pm.save s clocks).2.1, (pm.save s clocks).1) := by
  unfold PersistenceManager.save
  split
  · exact h.mono fun _ => .inl
  · obtain ⟨hle, hd⟩ := extract_of_dirtyCount clocks h.lockstep hone
    have hL : (extract s clocks).1.Lockstep :=
      (h.lockstep.decays_extract (T := fun _ => True) fun _ _ => trivial).lockstep
    refine ⟨hL, fun dump n hs => ?_, h.file.step (fun _ => .inl) hle fun e => (hd e).1⟩
    cases hs
    exact ⟨hle, fun e => ⟨_, .inr rfl, (hd e).2.congr (hd e).1⟩⟩

theorem Saves.saveDone : Saves R (s, pm.saveDone) := by
  unfold PersistenceManager.saveDone
  cases hs : pm.saving with
  | none => exact h
  | some p => exact ⟨h.lockstep, fun _ _ hd => (nomatch hd), h.saving p.1 p.2 hs⟩

end

theorem saves_run (maxKeys : Nat) (hm : 1 ≤ maxKeys) (steps : List SaveStep)
    (hplain : ∀ past rest, steps = past ++ rest → PlainNames (saveRun maxKeys hm past).1)
    (hcount : ∀ past op now rest, steps = past ++ .op op now :: rest →
      op.createsUncounted (saveRun maxKeys hm past).1 = false) :
    Saves (SaveReads steps) (saveRun maxKeys hm steps) := by
  induction steps using List.reverseRecOn with
  | nil => exact saves_create maxKeys hm
  | append_singleton past step ih =>
    have hrun : saveRun maxKeys hm (past ++ [step]) = saveStep (saveRun maxKeys hm past) step := by
      simp [saveRun]
    have hpast := ih (fun p r e => hplain p (r ++ [step]) (by rw [e, List.append_assoc]))
      fun p op now r e => hcount p op now (r ++ [step]) (by rw [e]; simp)
    have hmono : ∀ T, SaveReads past T → SaveReads (past ++ [step]) T := by
      rintro T (⟨clocks, hm, hT⟩ | hT)
      · exact .inl ⟨clocks, List.mem_append_left _ hm, hT⟩
      · exact .inr hT
    rw [hrun]
    cases step with
    | op op now => exact (hpast.op (hcount past op now [] rfl)).mono hmono
    | save clocks =>
      have hone : ∀ k, (saveRun maxKeys hm past).1.cell k ≠ none → OneLine k := by
        intro k hk
        obtain ⟨c, hc⟩ := Option.ne_none_iff_exists'.mp hk
        exact (hplain past [.save clocks] rfl k c hc).1
      refine (hpast.save hone).mono fun T hT => ?_
      rcases hT with hT | hT
      · exact hmono T hT
      · exact .inl ⟨clocks, List.mem_append_right _ (List.mem_singleton.mpr rfl), hT⟩
    | saveDone => exact hpast.saveDone.mono hmono
    | saveFailed =>
      exact Saves.mono
        ⟨hpast.lockstep, fun _ _ hd => absurd hd.symm (Option.some_ne_none _), hpast.file⟩ hmono

theorem Describes.dumped {T : Int → Prop} {s : InMemoryStore} {dump : Dump}
    (h : Describes T s.cell dump) (hp : PlainNames s) (k : Str) :
    Dumped T (s.cell k) (dump.get? k) := by
  cases hc : s.cell k with
  | none => rw [h.absent k (.inl hc)]; trivial
  | some c =>
    obtain ⟨-, hk, hv⟩ := hp k c hc
    obtain ⟨now, hn, he⟩ := h.present k c hc hk
    rw [he]
    refine ⟨(sameValue_restored c.value).mpr hv, ?_⟩
    obtain ⟨v, _ | d⟩ := c
    · trivial
    · exact ⟨now, hn, rfl⟩

/-- For every order of store operations, saves that start, succeed and fail, in which
no operation creates a key without counting it: whenever a tick would skip the save,
the last dump written holds just the keys of the store, each with its kind, its value
and the rounded seconds left of its deadline; and every operation that changes the
contents increases the counter. -/
theorem skipped_save_loses_nothing (maxKeys : Nat) (hm : 1 ≤ maxKeys) (steps : List SaveStep)
    (hplain : ∀ past rest, steps = past ++ rest → PlainNames (saveRun maxKeys hm past).1)
    (hcount : ∀ past op now rest, steps = past ++ .op op now :: rest →
      op.createsUncounted (saveRun maxKeys hm past).1 = false) :
    (skips (saveRun maxKeys hm steps) → ∃ T, SaveReads steps T ∧ ∀ k,
      Dumped T ((saveRun maxKeys hm steps).1.cell k)
        (((saveRun maxKeys hm steps).2.dumpFile.getD PlainObject.empty).get? k)) ∧
      ∀ past op now rest, steps = past ++ .op op now :: rest →
        (∃ k, (op.run (saveRun maxKeys hm past).1 now).1.cell k ≠
          (saveRun maxKeys hm past).1.cell k) →
        (saveRun maxKeys hm past).1.dirtyCount <
          (op.run (saveRun maxKeys hm past).1 now).1.dirtyCount := by
  have h := saves_run maxKeys hm steps hplain hcount
  refine ⟨fun hs => ?_, fun past op now rest e => ?_⟩
  · obtain ⟨T, hT, hd⟩ := h.file.describes hs
    exact ⟨T, hT, hd.dumped (hplain steps [] (by simp))⟩
  · have hp := saves_run maxKeys hm past
      (fun p r e' => hplain p (r ++ .op op now :: rest) (by rw [e, e', List.append_assoc]))
      fun p o n r e' => hcount p o n (r ++ .op op now :: rest) (by rw [e, e']; simp)
    exact (counted_iff hp.lockstep op now).mpr (hcount past op now rest e)

def savedHash : List SaveStep :=
  [.op (.hset ['h'] [(['f'], ['v'])]) (Clock.still 0), .save (Clocks.still 0), .saveDone]

theorem savedHash_complete : ∃ T, SaveReads savedHash T ∧ ∀ k,
    Dumped T ((saveRun 2 (by decide) savedHash).1.cell k)
      (((saveRun 2 (by decide) savedHash).2.dumpFile.getD PlainObject.empty).get? k) := by
  refine (skipped_save_loses_nothing 2 (by decide) savedHash (fun past rest e => ?_)
    fun past op now rest e => ?_).1 rfl
  · have hp : past ∈ savedHash.inits := (List.mem_inits ..).mpr ⟨rest, e.symm⟩
    have hall : ∀ p ∈ savedHash.inits, ∀ k ∈ (saveRun 2 (by decide) p).1.values.keys,
        ∀ c ∈ (saveRun 2 (by decide) p).1.cell k,
          k.all (fun d => !isLineTerminator d) = true ∧ Representable k c := by
      simp only [savedHash, List.inits, List.forall_mem_cons]
      decide
    refine forall_cell fun k hk c hc => ?_
    obtain ⟨ht, hr⟩ := hall past hp k hk c hc
    exact ⟨Text.forall_mem_of_all ht, hr⟩
  · cases past with
    | nil => cases e; rfl
    | cons step past =>
      -- only the first step is an operation
      have hm : SaveStep.op op now ∈ savedHash.tail := by rw [e]; simp
      simp [savedHash] at hm

/-- A push creates a list, and no tick ever saves it. -/
theorem created_list_skipped :
    (Op.lpush ['l'] [['x']]).createsUncounted (InMemoryStore.create 2 (by decide)) = true ∧
    skips (saveRun 2 (by decide) [.op (.lpush ['l'] [['x']]) (Clock.still 0)]) ∧
    (saveRun 2 (by decide) [.op (.lpush ['l'] [['x']]) (Clock.still 0)]).1.cell ['l'] =
      some ⟨.list [['x']], none⟩ ∧
    (saveRun 2 (by decide) [.op (.lpush ['l'] [['x']]) (Clock.still 0)]).2.dumpFile = none :=
  ⟨by decide, rfl, by decide, by decide⟩

end PersistenceManager

end MiniStore
