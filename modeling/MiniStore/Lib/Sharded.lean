import MiniStore.Lib.Trace

/-!
# Machines that work part by part

An event of such a machine has a key. It reads and changes the part of the state under that key,
and no other (`ByKey`). So the answers to the events of one key are those of a machine that has
only that part and sees only those events (`ByKey.run`), whatever comes in between; and they are
the same from any two states that agree on the part (`ByKey.independent`).
-/

namespace Sharded

open Trace

variable {σ ε ω κ τ : Type} [DecidableEq κ]

/-- The answers to the events of a key. -/
def answersFor (key : ε → κ) (k : κ) (events : List ε) (answers : List ω) : List ω :=
  ((events.zip answers).filter fun p => key p.1 = k).map Prod.snd

/-- The events of a key. -/
def eventsFor (key : ε → κ) (k : κ) (events : List ε) : List ε := events.filter fun e => key e = k

/-- In the states of `J` an event of `A` acts on the part under its key, as `act` says. -/
structure ByKey (J : σ → Prop) (A : ε → Prop) (step : σ → ε → σ × ω) (key : ε → κ)
    (part : σ → κ → τ) (act : τ → ε → τ × ω) : Prop where
  keeps : ∀ {s e}, J s → A e → J (step s e).1
  own : ∀ {s e}, J s → A e → (part (step s e).1 (key e), (step s e).2) = act (part s (key e)) e
  other : ∀ {s e k}, J s → A e → k ≠ key e → part (step s e).1 k = part s k

section

variable {key : ε → κ} {k : κ}

theorem eventsFor_self {e : ε} (events : List ε) (h : key e = k) :
    eventsFor key k (e :: events) = e :: eventsFor key k events :=
  List.filter_cons_of_pos (by simpa using h)

theorem eventsFor_other {e : ε} (events : List ε) (h : key e ≠ k) :
    eventsFor key k (e :: events) = eventsFor key k events :=
  List.filter_cons_of_neg (by simpa using h)

theorem answersFor_self {e : ε} {events : List ε} (a : ω) (answers : List ω) (h : key e = k) :
    answersFor key k (e :: events) (a :: answers) = a :: answersFor key k events answers := by
  rw [answersFor, List.zip_cons_cons, List.filter_cons_of_pos (by simpa using h)]
  rfl

theorem answersFor_other {e : ε} {events : List ε} (a : ω) (answers : List ω) (h : key e ≠ k) :
    answersFor key k (e :: events) (a :: answers) = answersFor key k events answers := by
  rw [answersFor, List.zip_cons_cons, List.filter_cons_of_neg (by simpa using h)]
  rfl

theorem eventsFor_all {events : List ε} (h : ∀ e ∈ events, key e = k) :
    eventsFor key k events = events :=
  List.filter_eq_self.mpr fun e he => by simpa using h e he

theorem answersFor_all {answers : List ω} : ∀ {events : List ε}, (∀ e ∈ events, key e = k) →
    answers.length = events.length → answersFor key k events answers = answers := by
  induction answers with
  | nil =>
    intro events _ _
    rw [answersFor, List.zip_nil_right]
    rfl
  | cons a answers ih =>
    intro events hk hlen
    cases events with
    | nil => cases hlen
    | cons e events =>
      obtain ⟨he, hk⟩ := List.forall_mem_cons.mp hk
      rw [answersFor_self a answers he, ih hk (Nat.succ.inj hlen)]

variable {J : σ → Prop} {A : ε → Prop} {step : σ → ε → σ × ω} {part : σ → κ → τ}
  {act : τ → ε → τ × ω}

/-- The part under a key, and the answers to its events, are those of the part alone. -/
theorem ByKey.run (h : ByKey J A step key part act) (k : κ) {events : List ε} :
    ∀ {s : σ}, J s → (∀ e ∈ events, A e) →
      part (answered step s events).1 k =
          (answered act (part s k) (eventsFor key k events)).1 ∧
        answersFor key k events (answered step s events).2 =
          (answered act (part s k) (eventsFor key k events)).2 := by
  induction events with
  | nil => exact fun _ _ => ⟨rfl, rfl⟩
  | cons e events ih =>
    intro s hj ha
    obtain ⟨he, ha⟩ := List.forall_mem_cons.mp ha
    obtain ⟨hpart, hans⟩ := ih (h.keeps hj he) ha
    by_cases hk : key e = k
    · have hown := h.own hj he
      rw [hk, Prod.ext_iff] at hown
      obtain ⟨hstate, hanswer⟩ := hown
      dsimp only at hstate hanswer
      rw [hstate] at hpart hans
      rw [eventsFor_self events hk, answered, answered, answersFor_self _ _ hk]
      exact ⟨hpart, List.cons_eq_cons.mpr ⟨hanswer, hans⟩⟩
    · rw [h.other hj he (Ne.symm hk)] at hpart hans
      rw [eventsFor_other events hk, answered, answersFor_other _ _ hk]
      exact ⟨hpart, hans⟩

/-- The events of other keys may be left out, and the rest of the state may differ. -/
theorem ByKey.independent (h : ByKey J A step key part act) {J' : σ → Prop} {A' : ε → Prop}
    (h' : ByKey J' A' step key part act) {s s' : σ} (hj : J s) (hj' : J' s') {events : List ε}
    (ha : ∀ e ∈ events, A e) (ha' : ∀ e ∈ events, key e = k → A' e) (hsame : part s k = part s' k) :
    part (answered step s events).1 k = part (answered step s' (eventsFor key k events)).1 k ∧
      answersFor key k events (answered step s events).2 =
        (answered step s' (eventsFor key k events)).2 := by
  have hown : ∀ e ∈ eventsFor key k events, key e = k ∧ A' e := by
    intro e he
    obtain ⟨hmem, hk⟩ := List.mem_filter.mp he
    have hk : key e = k := by simpa using hk
    exact ⟨hk, ha' e hmem hk⟩
  obtain ⟨hpart, hans⟩ := h.run k hj ha
  obtain ⟨hpart', hans'⟩ := h'.run k hj' fun e he => (hown e he).2
  rw [eventsFor_all fun e he => (hown e he).1] at hpart' hans'
  rw [answersFor_all (fun e he => (hown e he).1) (length_answered _ _ _)] at hans'
  rw [hsame] at hpart hans
  exact ⟨hpart.trans hpart'.symm, hans.trans hans'.symm⟩

end

end Sharded
