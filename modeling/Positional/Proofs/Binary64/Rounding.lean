/-
  Positional.Proofs.Binary64.Rounding — what rounding does to a whole count.

  A count goes to the nearest multiple of its step, so it is moved by half a step at most
  (`roundUnits_half`).

  The step is a power of two. A power of two that divides a count divides the rounded count as
  well, whether it is smaller than the step or not (`twoPow_dvd_roundUnits`).
-/
import Positional.Proofs.Binary64.Exact

namespace Positional.Binary64

theorem twoPow_dvd {j k : Nat} (h : j ≤ k) : twoPow j ∣ twoPow k := Nat.pow_dvd_pow 2 h

/-- The nearest number of parts is half a part away at most. -/
theorem nearest_half (num : Nat) {den : Nat} (h : 0 < den) :
    2 * (nearest num den * den) ≤ 2 * num + den ∧ 2 * num ≤ 2 * (nearest num den * den) + den := by
  have hdiv := Nat.div_add_mod' num den
  have hmod := Nat.mod_lt num h
  simp only [nearest]
  split
  · omega
  · rw [Nat.add_mul, Nat.one_mul]
    omega

theorem roundUnits_half (n : Nat) {den : Nat} (h : 0 < den) :
    2 * roundUnits (n * den) den ≤ 2 * n + step n ∧ 2 * n ≤ 2 * roundUnits (n * den) den + step n := by
  obtain ⟨hup, hdown⟩ := nearest_half (n * den) (Nat.mul_pos h (twoPow_pos (n.log2 - 52)))
  rw [← step] at hup hdown
  simp only [roundUnits, Nat.mul_div_cancel n h]
  generalize nearest (n * den) (den * step n) = q at hup hdown ⊢
  constructor
  · refine Nat.le_of_mul_le_mul_right ?_ h
    calc 2 * (q * step n) * den = 2 * (q * (den * step n)) := by ac_rfl
      _ ≤ 2 * (n * den) + den * step n := hup
      _ = (2 * n + step n) * den := by rw [Nat.add_mul, Nat.mul_assoc, Nat.mul_comm den]
  · refine Nat.le_of_mul_le_mul_right ?_ h
    calc 2 * n * den = 2 * (n * den) := Nat.mul_assoc _ _ _
      _ ≤ 2 * (q * (den * step n)) + den * step n := hdown
      _ = (2 * (q * step n) + step n) * den := by
        rw [Nat.add_mul, Nat.mul_comm den, Nat.mul_assoc, Nat.mul_assoc]

theorem twoPow_dvd_roundUnits {j n den : Nat} (hd : 0 < den) (h : twoPow j ∣ n) :
    twoPow j ∣ roundUnits (n * den) den := by
  rcases Nat.le_total j (n.log2 - 52) with hj | hj
  · simp only [roundUnits, Nat.mul_div_cancel n hd]
    exact Nat.dvd_trans (twoPow_dvd hj) (Nat.dvd_mul_left _ _)
  · rwa [roundUnits_of_step_dvd (Nat.dvd_trans (twoPow_dvd hj) h) hd]

end Positional.Binary64
