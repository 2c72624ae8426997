import Mathlib.Algebra.Order.Floor.Div
import Mathlib.Data.Nat.ModEq

/-!
# Round robin

A cursor that goes round `n` places and visits `k` of them at a time. `window` lists the places
of one turn: each once, as long as a turn is no longer than the round (`nodup_window`), and with
turns that make up a round every place has its turn (`exists_turn`).

`drains` is the rule for what the turns are to use up: as long as some is left, a bounded number
of steps takes some of it.
-/

namespace RoundRobin

/-- The `k` places from `c` on, going round `n` places. -/
def window (n c k : Nat) : List Nat := (List.range k).map fun i => (c + i) % n

variable {n c k q : Nat}

@[simp] theorem length_window : (window n c k).length = k := by simp [window]

theorem mem_window : q ∈ window n c k ↔ ∃ i < k, (c + i) % n = q := by
  simp [window]

/-- Where the turn begins matters up to whole rounds. -/
theorem window_congr {c' : Nat} (h : c % n = c' % n) : window n c k = window n c' k :=
  List.map_congr_left fun i _ => by rw [Nat.add_mod, h, ← Nat.add_mod]

theorem window_succ : window n c (k + 1) = c % n :: window n (c + 1) k := by
  rw [window, List.range_succ_eq_map, List.map_cons, List.map_map, Nat.add_zero, window]
  refine congrArg _ (List.map_congr_left fun i _ => ?_)
  show (c + (i + 1)) % n = (c + 1 + i) % n
  rw [Nat.add_comm i 1, Nat.add_assoc]

theorem nodup_window (h : k ≤ n) : (window n c k).Nodup := by
  refine List.Nodup.map_on (fun i hi j hj e => ?_) List.nodup_range
  have hi := List.mem_range.mp hi
  have hj := List.mem_range.mp hj
  have hmod : i % n = j % n := Nat.ModEq.add_left_cancel' c e
  rwa [Nat.mod_eq_of_lt (by omega), Nat.mod_eq_of_lt (by omega)] at hmod

theorem exists_ahead (c : Nat) (hq : q < n) : ∃ d < n, (c + d) % n = q := by
  have hc : c % n < n := Nat.mod_lt c (by omega)
  by_cases h : c % n ≤ q
  · refine ⟨q - c % n, by omega, ?_⟩
    rw [Nat.add_mod, Nat.mod_eq_of_lt (show q - c % n < n by omega),
      show c % n + (q - c % n) = q by omega, Nat.mod_eq_of_lt hq]
  · refine ⟨q + n - c % n, by omega, ?_⟩
    rw [Nat.add_mod, Nat.mod_eq_of_lt (show q + n - c % n < n by omega),
      show c % n + (q + n - c % n) = q + n by omega, Nat.add_mod_right, Nat.mod_eq_of_lt hq]

/-- In `m` turns that make up a round every place has its turn. -/
theorem exists_turn {m : Nat} (c : Nat) (hq : q < n) (hm : n ≤ m * k) :
    ∃ i < m, q ∈ window n (c + i * k) k := by
  obtain ⟨d, hd, rfl⟩ := exists_ahead c hq
  have hdm : d < m * k := Nat.lt_of_lt_of_le hd hm
  have hk : 0 < k := by
    rcases Nat.eq_zero_or_pos k with rfl | hk
    · exact absurd hdm (Nat.not_lt_zero d)
    · exact hk
  refine ⟨d / k, (Nat.div_lt_iff_lt_mul hk).mpr hdm, mem_window.mpr ⟨d % k, Nat.mod_lt d hk, ?_⟩⟩
  rw [Nat.add_assoc, Nat.mul_comm, Nat.div_add_mod]

/-- Turns of `k` places, or of a round if that is less, make up a round. -/
theorem le_turns (hk : 1 ≤ k) (n : Nat) : n ≤ n ⌈/⌉ k * min k n := by
  have hle : n ≤ k * (n ⌈/⌉ k) :=
    (ceilDiv_le_iff_le_mul (Nat.lt_of_lt_of_le Nat.one_pos hk)).mp (Nat.le_refl _)
  rcases Nat.le_total k n with h | h
  · rwa [Nat.min_eq_left h, Nat.mul_comm]
  · rw [Nat.min_eq_right h]
    rcases Nat.eq_zero_or_pos n with rfl | hn
    · exact Nat.zero_le _
    · exact Nat.le_mul_of_pos_left _ (Nat.pos_of_mul_pos_left (Nat.lt_of_lt_of_le hn hle))

section

variable {σ : Type} {step : σ → σ} {I : σ → Prop} {μ : σ → Nat}

theorem iterate_keeps (keeps : ∀ s, I s → I (step s)) {s : σ} (hs : I s) (m : Nat) :
    I (step^[m] s) := by
  induction m with
  | zero => exact hs
  | succ m ih =>
    rw [Function.iterate_succ_apply']
    exact keeps _ ih

theorem iterate_le (keeps : ∀ s, I s → I (step s)) (falls : ∀ s, I s → μ (step s) ≤ μ s)
    {s : σ} (hs : I s) (m : Nat) : μ (step^[m] s) ≤ μ s := by
  induction m with
  | zero => exact Nat.le_refl _
  | succ m ih =>
    rw [Function.iterate_succ_apply']
    exact Nat.le_trans (falls _ (iterate_keeps keeps hs m)) ih

/-- If no step adds to `μ` and, as long as it is positive, at most `b` steps take from it, then
`μ s * b` steps use it up. -/
theorem drains {b : Nat} (keeps : ∀ s, I s → I (step s)) (falls : ∀ s, I s → μ (step s) ≤ μ s)
    (progress : ∀ s, I s → 0 < μ s → ∃ i ≤ b, μ (step^[i] s) < μ s) {s : σ} {m : Nat} (hs : I s)
    (hm : μ s * b ≤ m) : μ (step^[m] s) = 0 := by
  induction hμ : μ s using Nat.strongRecOn generalizing s m with
  | ind v ih =>
    rcases Nat.eq_zero_or_pos v with hv | hv
    · have := iterate_le keeps falls hs m
      omega
    · obtain ⟨i, hi, hlt⟩ := progress s hs (hμ ▸ hv)
      have hb : μ (step^[i] s) * b + b ≤ m := by
        rw [← Nat.succ_mul]
        exact Nat.le_trans (Nat.mul_le_mul_right b hlt) hm
      have hle : μ (step^[i] s) * b ≤ m - i := by omega
      have hrest := ih _ (hμ ▸ hlt) (iterate_keeps keeps hs i) hle rfl
      rwa [← Function.iterate_add_apply, Nat.sub_add_cancel (by omega)] at hrest

end

end RoundRobin
