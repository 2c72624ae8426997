import MiniStore.Recovery.Replay

/-!
# A replay that mirrors the store

A command that sets no deadline and finds a slot free does the same to the live store and to
the replayed one (`Mirrors.perform`). It is logged if it changes anything, but for an HSET that
overwrites a field without adding one: this changes the hash and is not logged.
-/

namespace MiniStore

open InMemoryStore Engine

/-- The command about to run gives a key a deadline: SET with EX, or EXPIRE of a
key that is there. -/
def Moment.setsTtl (m : Moment) : Bool :=
  match m.item with
  | some ⟨_, .set _ _ ttlSeconds⟩ => ttlSeconds.isSome
  | some ⟨_, .expire key _⟩ => (m.store.cell key).isSome
  | _ => false

/-- An HSET about to run adds a field, or leaves the hash as it is. -/
def Moment.addsOrKeeps (m : Moment) : Bool :=
  match m.item with
  | some ⟨_, .hset key pairs⟩ =>
    match m.store.cell key with
    | some ⟨.hash map, _⟩ => (setPairs map pairs).2 > 0 || (setPairs map pairs).1 == map
    | _ => true
  | _ => true

namespace Recovery

theorem setPairs_of_addsOrKeeps {m : Moment} (h : m.addsOrKeeps = true) {line key : Str}
    {pairs : List (Str × Str)} (hi : m.item = some ⟨line, .hset key pairs⟩)
    {map : OrdMap Str Str} {d : Option Int} (hc : m.store.cell key = some ⟨.hash map, d⟩)
    (hz : (setPairs map pairs).2 = 0) : (setPairs map pairs).1 = map := by
  simp only [Moment.addsOrKeeps, hi, hc, hz] at h
  simpa using h

/-- The replayed store answers as the live one does, which has no deadlines. -/
structure Mirrors (live replayed : InMemoryStore) : Prop where
  permanent : ∀ k, Cell.Permanent (live.cell k)
  cell : ∀ k, replayed.cell k = live.cell k

theorem Mirrors.decays {T : Int → Prop} {live live' replayed : InMemoryStore}
    (h : Mirrors live replayed) (hd : Decays T live live') : Mirrors live' replayed := by
  have hc : ∀ k, live'.cell k = live.cell k := fun k => hd.cell_eq (h.permanent k)
  exact ⟨fun k => by rw [hc]; exact h.permanent k, fun k => by rw [hc]; exact h.cell k⟩

section

variable {live replayed : InMemoryStore} (h : Mirrors live replayed) (hl : live.Lockstep)
  (hr : replayed.Lockstep) (hmax : replayed.maxKeys = live.maxKeys)
  (hroom : live.size < live.maxKeys) {c : Command} {key : Str} {now now' : Clock}

include h hl hr hmax hroom

theorem Mirrors.perform (hc : c.timeless = true) {f f' : Option Cell → Effect × Bool}
    (hm : c.mutation now = some (key, f)) (hm' : c.mutation now' = some (key, f')) :
    Mirrors (live.perform key now f).1 (replayed.perform key now' f').1 := by
  obtain rfl : f = f' := by
    rw [Command.mutation_timeless hc now now', hm'] at hm
    cases hm; rfl
  have hsize : replayed.size < replayed.maxKeys := by
    rw [hmax, hr.size_eq hl fun k => by rw [h.cell]]; exact hroom
  have hp' : Cell.Permanent (replayed.cell key) := by rw [h.cell]; exact h.permanent key
  refine ⟨fun k => ?_, fun k => ?_⟩
  · rw [hl.cell_perform_permanent (h.permanent key) hroom]
    split
    · exact Command.permanent_of_timeless hc hm (h.permanent key)
    · exact h.permanent k
  · rw [hl.cell_perform_permanent (h.permanent key) hroom, hr.cell_perform_permanent hp' hsize,
      h.cell key, h.cell k]

omit hr hmax in
/-- A command that leaves its key as it is. -/
theorem Mirrors.perform_live {f : Option Cell → Effect × Bool}
    (hf : (f (live.cell key)).1.action.onCell (live.cell key) = live.cell key) :
    Mirrors (live.perform key now f).1 replayed := by
  have hc : ∀ k, (live.perform key now f).1.cell k = live.cell k := fun k => by
    rw [hl.cell_perform_permanent (h.permanent key) hroom, hf]
    split
    · next e => rw [e]
    · rfl
  exact ⟨fun k => by rw [hc]; exact h.permanent k, fun k => by rw [hc]; exact h.cell k⟩

end

/-- The command sets no deadline and has a slot free, and an HSET that adds no field
leaves the hash as it is. -/
structure Tame (maxKeys : Nat) (m : Moment) : Prop where
  room : m.store.size < maxKeys
  noTtl : m.setsTtl = false
  hset : m.addsOrKeeps = true

/-- A logged command whose moment sets no deadline does not depend on the clock. -/
theorem timeless_of_logged {m : Moment} (ht : m.setsTtl = false) {item : QueuedCommand}
    (hi : m.item = some item) {now : Clock} {key : Str} {f : Option Cell → Effect × Bool}
    (hm : item.command.mutation now = some (key, f)) (hl : (f (m.store.cell key)).2 = true) :
    item.command.timeless = true := by
  obtain ⟨line, c⟩ := item
  simp only [Moment.setsTtl, hi] at ht
  cases c with
  | set k v n =>
    cases n with
    | none => rfl
    | some n => cases ht
  | expire k n =>
    cases hm
    rw [Option.isSome_eq_false_iff, Option.isNone_iff_eq_none] at ht
    rw [ht] at hl
    cases hl
  | _ => rfl

end Recovery

end MiniStore
