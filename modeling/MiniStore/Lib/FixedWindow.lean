import MiniStore.Lib.Trace

/-!
# Limiting by fixed windows

A limiter counts what arrives in a window of time and refuses what exceeds its limit. The first
arrival more than a period after the start of the window starts the next one. Two windows can
meet within any stretch of time, so the arrivals of a stretch of `d` are admitted up to
`limit * (d / (period + 1) + 2)` times (`count_admitted_le`); and nobody who keeps his own
distance is ever refused (`admits_spaced`).
-/

namespace FixedWindow

open Trace

/-- What has arrived in a window, and when it started. -/
structure Window where
  count : Nat
  start : Int
  deriving DecidableEq

/-- The window after an arrival, and whether the arrival is within the limit. -/
def Window.ask (limit period : Nat) (w : Window) (now : Int) : Window × Bool :=
  let w := if now - w.start > period then ⟨0, now⟩ else w
  (⟨w.count + 1, w.start⟩, w.count + 1 ≤ limit)

def admitted (limit period : Nat) (w : Window) (times : List Int) : List Bool :=
  (answered (Window.ask limit period) w times).2

section

variable {limit period : Nat} {w : Window} {now : Int}

theorem admit_within (h : now - w.start ≤ period) :
    w.ask limit period now = (⟨w.count + 1, w.start⟩, decide (w.count + 1 ≤ limit)) := by
  rw [Window.ask, if_neg (Int.not_lt.mpr h)]

theorem admit_after (h : period < now - w.start) :
    w.ask limit period now = (⟨1, now⟩, decide (1 ≤ limit)) := by
  rw [Window.ask, if_pos h]

theorem admitted_cons (limit period : Nat) (w : Window) (now : Int) (times : List Int) :
    admitted limit period w (now :: times) = (w.ask limit period now).2 ::
      admitted limit period (w.ask limit period now).1 times := rfl

end

/-! ## Never more than the limit -/

/-- The windows that can still start in a stretch that ends at `b`. -/
def windowsLeft (period : Nat) (w : Window) (b : Int) : Nat := (b - w.start).toNat / (period + 1)

/-- A window starts at least one period after the one before it. -/
theorem windowsLeft_lt {period : Nat} {w : Window} {now b : Int} (h : period < now - w.start)
    (hb : now ≤ b) (count : Nat) : windowsLeft period ⟨count, now⟩ b + 1 ≤ windowsLeft period w b := by
  have hle : (b - now).toNat + (period + 1) ≤ (b - w.start).toNat := by omega
  calc windowsLeft period ⟨count, now⟩ b + 1
      = ((b - now).toNat + (period + 1)) / (period + 1) := (Nat.add_div_right _ (Nat.succ_pos _)).symm
    _ ≤ windowsLeft period w b := Nat.div_le_div_right hle

/-- What is admitted is what is left of this window, and the limit for each that can follow. -/
theorem count_admitted_le_windows (limit period : Nat) {b : Int} (times : List Int) :
    ∀ w : Window, (∀ t ∈ times, t ≤ b) → (admitted limit period w times).count true ≤
      (limit - w.count) + limit * windowsLeft period w b := by
  induction times with
  | nil => exact fun _ _ => Nat.zero_le _
  | cons now times ih =>
    intro w hb
    obtain ⟨hnow, hrest⟩ := List.forall_mem_cons.mp hb
    rw [admitted_cons]
    rcases Int.lt_or_le (period : Int) (now - w.start) with h | h
    · have hleft := Nat.mul_le_mul_left limit (windowsLeft_lt h hnow 1)
      have hih := ih ⟨1, now⟩ hrest
      rw [admit_after h, List.count_cons]
      rw [Nat.mul_succ] at hleft
      dsimp only at hih ⊢
      by_cases hl : 1 ≤ limit
      · rw [if_pos (by simpa using hl)]
        omega
      · rw [if_neg (by simpa using hl)]
        omega
    · have hih := ih ⟨w.count + 1, w.start⟩ hrest
      have hsame : windowsLeft period ⟨w.count + 1, w.start⟩ b = windowsLeft period w b := rfl
      rw [admit_within h, List.count_cons]
      rw [hsame] at hih
      dsimp only at hih ⊢
      by_cases hl : w.count + 1 ≤ limit
      · rw [if_pos (by simpa using hl)]
        omega
      · rw [if_neg (by simpa using hl)]
        omega

/-- The first window that starts in a stretch of `d` comes on top of those that can follow it. -/
theorem count_admitted_le_stretch (limit period : Nat) {a : Int} {d : Nat} (times : List Int) :
    ∀ w : Window, (∀ t ∈ times, a ≤ t ∧ t ≤ a + d) → (admitted limit period w times).count true ≤
      (limit - w.count) + limit * (d / (period + 1) + 1) := by
  induction times with
  | nil => exact fun _ _ => Nat.zero_le _
  | cons now times ih =>
    intro w hb
    obtain ⟨⟨ha, hnow⟩, hrest⟩ := List.forall_mem_cons.mp hb
    rw [admitted_cons]
    rcases Int.lt_or_le (period : Int) (now - w.start) with h | h
    · have hwindows := count_admitted_le_windows limit period (b := a + d) times ⟨1, now⟩
        fun t ht => (hrest t ht).2
      have hleft : windowsLeft period ⟨1, now⟩ (a + d) ≤ d / (period + 1) :=
        Nat.div_le_div_right (by dsimp only; omega)
      have hmul := Nat.mul_le_mul_left limit hleft
      rw [admit_after h, List.count_cons, Nat.mul_succ]
      dsimp only at hwindows ⊢
      by_cases hl : 1 ≤ limit
      · rw [if_pos (by simpa using hl)]
        omega
      · rw [if_neg (by simpa using hl)]
        omega
    · have hih := ih ⟨w.count + 1, w.start⟩ hrest
      rw [admit_within h, List.count_cons]
      dsimp only at hih ⊢
      by_cases hl : w.count + 1 ≤ limit
      · rw [if_pos (by simpa using hl)]
        omega
      · rw [if_neg (by simpa using hl)]
        omega

/-- Of what arrives within `d`, in whatever order, no more is admitted than two windows allow
and one for each further period. -/
theorem count_admitted_le (limit period : Nat) {a : Int} {d : Nat} {times : List Int}
    (h : ∀ t ∈ times, a ≤ t ∧ t ≤ a + d) (w : Window) :
    (admitted limit period w times).count true ≤ limit * (d / (period + 1) + 2) := by
  have hstretch := count_admitted_le_stretch limit period times w h
  calc (admitted limit period w times).count true
      ≤ (limit - w.count) + limit * (d / (period + 1) + 1) := hstretch
    _ ≤ limit + limit * (d / (period + 1) + 1) := Nat.add_le_add_right (Nat.sub_le _ _) _
    _ = limit * (d / (period + 1) + 2) := by rw [Nat.mul_succ _ (_ + 1), Nat.add_comm]

/-! ## Who is never refused -/

/-- No more than the limit come within a period. -/
def Spaced (limit period : Nat) (times : List Int) : Prop :=
  ∀ (i : Nat) (t u : Int), times[i]? = some t → times[i + limit]? = some u → period < u - t

/-- The window counts the last arrivals before now, and started no later than they came. -/
structure Counts (past : List Int) (w : Window) : Prop where
  length : w.count ≤ past.length
  started : ∀ (i : Nat) (t : Int), past.length ≤ i + w.count → past[i]? = some t → w.start ≤ t

theorem Counts.snoc {past : List Int} {w : Window} (h : Counts past w) {now : Int}
    (hw : w.start ≤ now) : Counts (past ++ [now]) ⟨w.count + 1, w.start⟩ := by
  refine ⟨?_, fun i t hi ht => ?_⟩
  · rw [List.length_append]
    exact Nat.succ_le_succ h.length
  · rw [List.length_append, List.length_singleton] at hi
    rcases Nat.lt_or_ge i past.length with hlt | hge
    · rw [List.getElem?_append_left hlt] at ht
      exact h.started i t (by dsimp only at hi; omega) ht
    · rw [List.getElem?_append_right hge] at ht
      obtain ⟨-, rfl⟩ := List.getElem?_eq_some_iff.mp ht
      simpa using hw

theorem counts_fresh (past : List Int) (now : Int) : Counts past ⟨0, now⟩ := by
  refine ⟨Nat.zero_le _, fun i t (hi : past.length ≤ i) ht => ?_⟩
  rw [List.getElem?_eq_none hi] at ht
  cases ht

/-- Arrivals in order, of which no more than the limit come within a period, are all admitted. -/
theorem admits_spaced {limit period : Nat} (hl : 0 < limit) (times : List Int) :
    ∀ (past : List Int) (w : Window), Counts past w → (∀ t ∈ times, w.start ≤ t) →
      times.Pairwise (· ≤ ·) → Spaced limit period (past ++ times) →
      ∀ b ∈ admitted limit period w times, b = true := by
  induction times with
  | nil => exact fun _ _ _ _ _ _ b hb => by cases hb
  | cons now times ih =>
    intro past w hw hstart hsorted hspaced
    obtain ⟨hnow, hlater⟩ := List.forall_mem_cons.mp hstart
    obtain ⟨hle, hsorted⟩ := List.pairwise_cons.mp hsorted
    have hpast : past ++ now :: times = past ++ [now] ++ times := by
      rw [List.append_assoc, List.singleton_append]
    have hnext := hspaced
    rw [hpast] at hnext
    rw [admitted_cons]
    rcases Int.lt_or_le (period : Int) (now - w.start) with h | h
    · rw [admit_after h]
      refine List.forall_mem_cons.mpr ⟨decide_eq_true hl, ?_⟩
      exact ih (past ++ [now]) ⟨1, now⟩ ((counts_fresh past now).snoc (Int.le_refl now)) hle hsorted
        hnext
    · rw [admit_within h]
      refine List.forall_mem_cons.mpr ⟨decide_eq_true ?_, ?_⟩
      · -- a full window would have had its first arrival within the period
        by_contra hfull
        have hcount := hw.length
        obtain ⟨t, ht⟩ : ∃ t, past[past.length - limit]? = some t :=
          ⟨_, List.getElem?_eq_getElem (by omega)⟩
        have hfirst := hw.started _ t (by omega) ht
        have hspan := hspaced (past.length - limit) t now
          (by rw [List.getElem?_append_left (by omega)]; exact ht)
          (by rw [Nat.sub_add_cancel (by omega), List.getElem?_append_right (Nat.le_refl _),
            Nat.sub_self]; rfl)
        omega
      · exact ih (past ++ [now]) ⟨w.count + 1, w.start⟩ (hw.snoc hnow) hlater hsorted hnext

end FixedWindow
