import MiniStore.Server.Invariants
import MiniStore.Store.Snapshot

/-!
# A snapshot and back

With the clock held still, saving a store and restoring the dump into a new one
gives the live keys with their values, each deadline at most a second later. What
is lost is what a plain object cannot hold: a key, or a field of a hash, that is
spelled `__proto__`.
-/

namespace MiniStore

open InMemoryStore PersistenceManager

namespace Recovery

/-- `save()` of a store at `t`, and `restore()` of the file into a new store at `r`; the
number is what `restore()` returns. -/
def saveAndRestore (s : InMemoryStore) (maxKeys : Nat) (hm : 1 ≤ maxKeys) (t r : Int) :
    InMemoryStore × Nat :=
  let saved := ((PersistenceManager.create none).save s (Clocks.still t)).1.saveDone
  ((PersistenceManager.create saved.dumpFile).restore (InMemoryStore.create maxKeys hm)
    (Clocks.still r)).2

def savedKeys (s : InMemoryStore) (t : Int) : Nat := (extract s (Clocks.still t)).2.entries.length

/-- A deadline on both sides or on none, at most one second later. -/
def AtMostASecondLater : Option Int → Option Int → Prop
  | none, none => True
  | some d, some d' => d ≤ d' ∧ d' ≤ d + 1000
  | _, _ => False

def Revives : Option Cell → Option Cell → Prop
  | none, none => True
  | some c, some c' => SameValue c.value c'.value ∧ AtMostASecondLater c.deadline c'.deadline
  | _, _ => False

/-- The seconds left of a live key are at least one, and end at most a second late. -/
theorem ceilSeconds_live {t d : Int} (h : t < d) :
    0 < max 0 (ceilSeconds (max 0 (d - t))) ∧
      d ≤ t + (max 0 (ceilSeconds (max 0 (d - t)))).toNat * 1000 ∧
      t + (max 0 (ceilSeconds (max 0 (d - t)))).toNat * 1000 ≤ d + 1000 := by
  have hx : max 0 (d - t) = d - t := by omega
  rw [hx]
  unfold ceilSeconds
  omega

theorem lt_of_liveAt {t d : Int} {v : StoredValue} {o : Option Cell}
    (h : liveAt t o = some ⟨v, some d⟩) : t < d := by
  have := (liveAt_eq_some.mp h).2
  simpa [Cell.expired] using this

theorem revives_restored {t : Int} {o : Option Cell} {c : Cell} (h : liveAt t o = some c) :
    (∀ ttl ∈ (serialize t c).ttl, 0 < ttl) ∧
      (Revives (some c) (some (restored t (serialize t c))) ↔
        SameValue c.value (restoredValue (serializeValue c.value))) ∧
      liveAt t (some (restored t (serialize t c))) = some (restored t (serialize t c)) := by
  obtain ⟨v, _ | d⟩ := c
  · refine ⟨fun ttl ht => (nomatch ht), ⟨And.left, fun h => ⟨h, trivial⟩⟩, rfl⟩
  · obtain ⟨h1, h2, h3⟩ := ceilSeconds_live (lt_of_liveAt h)
    refine ⟨fun ttl ht => ?_, ⟨And.left, fun h => ⟨h, h2, h3⟩⟩, ?_⟩
    · simp only [serialize, Option.map_some, Option.mem_some] at ht
      exact ht ▸ h1
    · refine liveAt_eq_some.mpr ⟨rfl, ?_⟩
      have ht := lt_of_liveAt h
      simp only [Cell.expired, restored, serialize, Option.map_some, decide_eq_false_iff_not]
      omega

theorem cell_saveAndRestore {s : InMemoryStore} (h : s.Lockstep)
    (hone : ∀ k, s.cell k ≠ none → OneLine k) (maxKeys : Nat) (hm : 1 ≤ maxKeys) (t r : Int)
    (hroom : savedKeys s t ≤ maxKeys) :
    (saveAndRestore s maxKeys hm t r).2 = savedKeys s t ∧
      ∀ k, (saveAndRestore s maxKeys hm t r).1.cell k =
        if k = PlainObject.protoKey then none
        else (liveAt t (s.cell k)).map fun c => restored r (serialize t c) := by
  have hd := describes_extract_still (t := t) h hone
  have hfile : ((PersistenceManager.create none).save s (Clocks.still t)).1.saveDone.dumpFile =
      some (extract s (Clocks.still t)).2 := rfl
  have hentry : ∀ k, (extract s (Clocks.still t)).2.get? k =
      if k = PlainObject.protoKey then none else (liveAt t (s.cell k)).map (serialize t) := by
    intro k
    by_cases hk : k = PlainObject.protoKey
    · rw [if_pos hk, hd.absent k (.inr hk)]
    · rw [if_neg hk]
      cases hc : liveAt t (s.cell k) with
      | none => exact hd.absent k (.inl hc)
      | some c =>
        obtain ⟨now, rfl, he⟩ := hd.present k c hc hk
        exact he
  obtain ⟨-, -, h3, h4, h5⟩ := restore_spec (PersistenceManager.create
    (some (extract s (Clocks.still t)).2)) rfl maxKeys hm (Clocks.still r) hroom fun k e he => by
      rw [hentry] at he
      split at he
      · cases he
      · obtain ⟨c, hc, rfl⟩ := Option.map_eq_some_iff.mp he
        exact (revives_restored hc).1
  unfold saveAndRestore
  simp only [hfile]
  refine ⟨h3, fun k => ?_⟩
  have he := hentry k
  by_cases hk : k = PlainObject.protoKey
  · rw [if_pos hk] at he ⊢
    exact h4 k he
  · rw [if_neg hk] at he ⊢
    cases hc : liveAt t (s.cell k) with
    | none => rw [hc] at he; exact h4 k he
    | some c =>
      rw [hc] at he
      obtain ⟨now, ⟨i, j, rfl⟩, hcell⟩ := h5 k _ he
      exact hcell

/-- For every store an engine reaches from the start, at every time: saving it and
restoring the dump into an empty store with room for the saved keys returns their
number and gives the live keys, each with its kind and content and its deadline at
most a second later, exactly if no live key and no field of a live hash is
`__proto__`. -/
theorem roundTrip_iff (maxKeys : Nat) (hm : 1 ≤ maxKeys) (pm : Option PersistenceManager)
    (pubSub : Option PubSubManager) (requirepass : Option Str) (disabledCommands : List Str)
    (events : List Event) (s : InMemoryStore)
    (hs : s = ((Engine.boot maxKeys hm pm pubSub requirepass disabledCommands).run events).store)
    (t : Int) (maxKeys' : Nat) (hm' : 1 ≤ maxKeys') (hroom : savedKeys s t ≤ maxKeys') :
    ((saveAndRestore s maxKeys' hm' t t).2 = savedKeys s t ∧
        ∀ k, Revives (liveAt t (s.cell k)) (liveAt t ((saveAndRestore s maxKeys' hm' t t).1.cell k))) ↔
      ∀ k c, liveAt t (s.cell k) = some c → Representable k c := by
  have hS := (Engine.fresh_boot maxKeys hm pm pubSub requirepass disabledCommands).sound.steps
    (Engine.steps_boot maxKeys hm pm pubSub requirepass disabledCommands events)
  obtain ⟨hL, hspelled⟩ : s.Lockstep ∧ ∀ k, s.cell k ≠ none → Text.IsToken k := by
    rw [hs]; exact ⟨hS.lockstep, hS.spelled⟩
  obtain ⟨hcount, hcell⟩ := cell_saveAndRestore hL
    (fun k hk => oneLine_of_isToken (hspelled k hk)) maxKeys' hm' t t hroom
  simp only [hcount, true_and, hcell]
  constructor
  · intro h k c hc
    have hk := h k
    rw [hc] at hk
    by_cases hp : k = PlainObject.protoKey
    · rw [if_pos hp] at hk; exact hk.elim
    · rw [if_neg hp, Option.map_some, (revives_restored hc).2.2, (revives_restored hc).2.1] at hk
      exact ⟨hp, (sameValue_restored c.value).mp hk⟩
  · intro h k
    cases hc : liveAt t (s.cell k) with
    | none => split <;> trivial
    | some c =>
      obtain ⟨hp, hv⟩ := h k c hc
      rw [if_neg hp, Option.map_some, (revives_restored hc).2.2, (revives_restored hc).2.1]
      exact (sameValue_restored c.value).mpr hv

def threeKinds (field : String) : InMemoryStore :=
  ((Engine.boot 3 (by decide) none none none []).run
    (timedLines [("SET 7 x EX 5", 0), ("RPUSH l a b", 0), ("HSET h " ++ field ++ " v", 0)])).store

theorem roundTrip_threeKinds :
    (saveAndRestore (threeKinds "f") 3 (by decide) 1500 1500).2 = savedKeys (threeKinds "f") 1500 ∧
      ∀ k, Revives (liveAt 1500 ((threeKinds "f").cell k))
        (liveAt 1500 ((saveAndRestore (threeKinds "f") 3 (by decide) 1500 1500).1.cell k)) := by
  refine (roundTrip_iff 3 (by decide) none none none [] _ _ rfl 1500 3 (by decide) (by decide)).mpr
    fun k c hc => ?_
  exact forall_cell (s := threeKinds "f") (by decide) k c (liveAt_eq_some.mp hc).1

/-- A hash with a field `__proto__` comes back without it. -/
theorem proto_field_lost :
    savedKeys (threeKinds "__proto__") 0 = 3 ∧
    (threeKinds "__proto__").cell ['h'] =
      some ⟨.hash (OrdMap.empty.set "__proto__".toList ['v']), none⟩ ∧
    (saveAndRestore (threeKinds "__proto__") 3 (by decide) 0 0).1.cell ['h'] =
      some ⟨.hash OrdMap.empty, none⟩ := by
  decide

end Recovery

end MiniStore
