import Mathlib.Data.List.Induction

/-!
# Runs of a state machine

`events.foldl next s` is the state a run ends in. `Along P` says that every step of a run
satisfies `P`, a property of the state and the event. The rules: what the steps of such a run
keep holds at its end (`Along.keeps`), and an invariant may speak of the events so far
(`history_rule`). What each step keeps in balance the whole run does (`Along.balance`). A machine
that answers its events refines another one when each step does (`refines_rule`).
-/

namespace Trace

variable {σ ε : Type} (next : σ → ε → σ)

/-- Every step of the run satisfies `P`. -/
def Along (P : σ → ε → Prop) : σ → List ε → Prop
  | _, [] => True
  | s, e :: es => P s e ∧ Along P (next s e) es

section

variable {next} {P Q : σ → ε → Prop} {J : σ → Prop}

/-- What every step of the run keeps holds at its end. -/
theorem Along.keeps (hkeep : ∀ {s e}, J s → P s e → J (next s e)) {events : List ε} :
    ∀ {s : σ}, J s → Along next P s events → J (events.foldl next s) := by
  induction events with
  | nil => exact fun hj _ => hj
  | cons e events ih => exact fun hj h => ih (hkeep hj h.1) h.2

/-- Steps from states that satisfy the invariant may use it. -/
theorem Along.imp (hkeep : ∀ {s e}, J s → J (next s e)) (himp : ∀ {s e}, J s → P s e → Q s e)
    {events : List ε} : ∀ {s : σ}, J s → Along next P s events → Along next Q s events := by
  induction events with
  | nil => exact fun _ _ => trivial
  | cons e events ih => exact fun hj h => ⟨himp hj h.1, ih (hkeep hj) h.2⟩

theorem Along.and {events : List ε} : ∀ {s : σ}, Along next P s events → Along next Q s events →
    Along next (fun s e => P s e ∧ Q s e) s events := by
  induction events with
  | nil => exact fun _ _ => trivial
  | cons e events ih => exact fun hp hq => ⟨⟨hp.1, hq.1⟩, ih hp.2 hq.2⟩

theorem along_append {events events' : List ε} : ∀ {s : σ},
    Along next P s (events ++ events') ↔
      Along next P s events ∧ Along next P (events.foldl next s) events' := by
  induction events with
  | nil =>
    intro s
    rw [List.nil_append, Along, true_and, List.foldl_nil]
  | cons e events ih =>
    intro s
    rw [List.cons_append, Along, Along, ih, List.foldl_cons, and_assoc]

/-- What the steps of such a run keep holds in every state of it. -/
theorem Along.reached (hkeep : ∀ {s e}, J s → P s e → J (next s e)) {s : σ} (hj : J s)
    {events : List ε} (h : Along next P s events) {past : List ε} (hp : past <+: events) :
    J (past.foldl next s) := by
  obtain ⟨rest, rfl⟩ := hp
  exact Along.keeps hkeep hj (along_append.mp h).1

theorem Along.step {s : σ} {events : List ε} (h : Along next P s events) {past : List ε} {e : ε}
    (hp : past ++ [e] <+: events) : P (past.foldl next s) e := by
  obtain ⟨rest, rfl⟩ := hp
  exact (along_append.mp (along_append.mp h).1).2.1

theorem along_of_reached {events : List ε} : ∀ {s : σ},
    (∀ past e, past ++ [e] <+: events → P (past.foldl next s) e) → Along next P s events := by
  induction events with
  | nil => exact fun _ => trivial
  | cons e events ih =>
    intro s h
    refine ⟨h [] e (List.prefix_append [e] events), ih fun past e' hp => ?_⟩
    exact h (e :: past) e' (List.cons_prefix_cons.mpr ⟨rfl, hp⟩)

end

section

variable {next} {I : List ε → σ → Prop}

/-- An invariant of the events so far and the state. -/
theorem history_rule (hkeep : ∀ {past s} e, I past s → I (past ++ [e]) (next s e)) {s : σ}
    (hstart : I [] s) (events : List ε) : I events (events.foldl next s) := by
  induction events using List.reverseRecOn with
  | nil => exact hstart
  | append_singleton events e ih =>
    rw [List.foldl_append]
    exact hkeep e ih

end

/-! ## Runs in time -/

/-- The events follow each other from `lo` to `hi`, each within a part of this time. -/
def InTurn (within : Int → Int → ε → Prop) : Int → Int → List ε → Prop
  | lo, hi, [] => lo ≤ hi
  | lo, hi, e :: es => ∃ mid, within lo mid e ∧ InTurn within mid hi es

/-! ## Sums over a run -/

/-- What the steps of a run come to. -/
def total (f : σ → ε → Nat) : σ → List ε → Nat
  | _, [] => 0
  | s, e :: events => f s e + total f (next s e) events

variable {next} in
/-- A measure that every step keeps in balance with its gains and losses. -/
theorem Along.balance {P : σ → ε → Prop} {gains losses : σ → ε → Nat} {μ : σ → Nat}
    (hstep : ∀ {s e}, P s e → μ s + gains s e = μ (next s e) + losses s e) {events : List ε} :
    ∀ {s : σ}, Along next P s events →
      μ s + total next gains s events = μ (events.foldl next s) + total next losses s events := by
  induction events with
  | nil => exact fun _ => rfl
  | cons e events ih =>
    intro s h
    have hhead := hstep h.1
    have htail := ih h.2
    rw [total, total, List.foldl_cons]
    omega

/-! ## Machines with answers -/

/-- The state a run ends in, with the answers to its events in turn. -/
def answered {ω : Type} (step : σ → ε → σ × ω) : σ → List ε → σ × List ω
  | s, [] => (s, [])
  | s, e :: events =>
    ((answered step (step s e).1 events).1, (step s e).2 :: (answered step (step s e).1 events).2)

theorem length_answered {ω : Type} (step : σ → ε → σ × ω) (events : List ε) :
    ∀ s, (answered step s events).2.length = events.length := by
  induction events with
  | nil => exact fun _ => rfl
  | cons e events ih => exact fun s => congrArg (· + 1) (ih (step s e).1)

/-- Machines whose steps keep a relation and answer alike do so in every run. -/
theorem refines_rule {τ ω : Type} {step : σ → ε → σ × ω} {spec : τ → ε → τ × ω} {R : σ → τ → Prop}
    (hstep : ∀ {s t} e, R s t → R (step s e).1 (spec t e).1 ∧ (step s e).2 = (spec t e).2)
    {s : σ} {t : τ} (h : R s t) (events : List ε) :
    R (answered step s events).1 (answered spec t events).1 ∧
      (answered step s events).2 = (answered spec t events).2 := by
  induction events generalizing s t with
  | nil => exact ⟨h, rfl⟩
  | cons e events ih =>
    obtain ⟨hr, ha⟩ := hstep e h
    obtain ⟨hend, hrest⟩ := ih hr
    exact ⟨hend, List.cons_eq_cons.mpr ⟨ha, hrest⟩⟩

end Trace
