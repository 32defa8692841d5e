/-
  Positional.Proofs.Binary64 — how far rounding can go.

  A rounded count is at most twice the count before it, and one (`roundUnits_le`); from one unit on
  it is not zero (`roundUnits_pos`). So nothing that is far below the ceiling becomes infinite
  (`isFinite_round`), and zero is the only whole number that is rounded to zero
  (`isZero_ofDecimal`).

  The operations that are exact stay finite: the change of sign (`isFinite_neg`) and the remainder by
  a number that is not zero (`isFinite_rem`).
-/
import Positional.Binary64.Bits
import Positional.Binary64.Decimal

namespace Positional.Binary64

/-! ## (1) The rounded count -/

theorem step_le {n : Nat} (h : 0 < n) : step n ≤ n :=
  Nat.le_trans (twoPow_le (Nat.sub_le _ _)) (Nat.log2_self_le (Nat.ne_of_gt h))

theorem le_nearest (num den : Nat) : num / den ≤ nearest num den := by
  simp only [nearest]
  split <;> omega

theorem roundUnits_le (num den : Nat) : roundUnits num den ≤ 2 * (num / den) + 1 := by
  have hn := nearest_le num (den * step (num / den))
  rw [← Nat.div_div_eq_div_mul] at hn
  simp only [roundUnits]
  by_cases h0 : num / den = 0
  · rw [h0] at hn ⊢
    simpa [step, twoPow_zero] using hn
  · have hs := step_le (Nat.pos_of_ne_zero h0)
    have hq := Nat.div_mul_le_self (num / den) (step (num / den))
    have hm := Nat.mul_le_mul_right (step (num / den)) hn
    rw [Nat.add_mul, Nat.one_mul] at hm
    omega

theorem roundUnits_pos {num den : Nat} (h : 0 < num / den) : 0 < roundUnits num den := by
  have hs : 0 < step (num / den) := twoPow_pos _
  have hq : 1 ≤ num / (den * step (num / den)) := by
    rw [← Nat.div_div_eq_div_mul, Nat.le_div_iff_mul_le hs, Nat.one_mul]
    exact step_le h
  exact Nat.mul_pos (Nat.lt_of_lt_of_le hq (le_nearest _ _)) hs

/-! ## (2) Finite numbers -/

theorem isFinite_round {negative : Bool} {num den : Nat} (h : 2 * (num / den) + 1 < ceiling) :
    (round negative num den).isFinite = true := by
  unfold round
  rw [dif_pos (Nat.lt_of_le_of_lt (roundUnits_le num den) h)]
  rfl

/-- A part of one. -/
theorem isFinite_ofRatio {num den : Nat} (h : num ≤ den) : (ofRatio num den).isFinite = true := by
  have hq : num * one / den ≤ one := Nat.div_le_of_le_mul (Nat.mul_le_mul_right one h)
  have hc : 2 * one + 1 < ceiling := by decide +kernel
  exact isFinite_round (by omega)

theorem isFinite_ofInt {n : Int} (h : n.natAbs ≤ twoPow 63) : (ofInt n).isFinite = true := by
  have hq := Nat.mul_le_mul_right one h
  have hc : 2 * (twoPow 63 * one) + 1 < ceiling := by decide +kernel
  exact isFinite_round (by rw [Nat.div_one]; omega)

theorem isFinite_neg {x : Binary64} (h : x.isFinite = true) : x.neg.isFinite = true := by
  cases x with
  | finite => rfl
  | nan | infinite => cases h

theorem isFinite_rem {x y : Binary64} (hx : x.isFinite = true) (hy : y.isFinite = true) (h0 : y.isZero = false) :
    (x.rem y).isFinite = true := by
  cases x with
  | nan | infinite => cases hx
  | finite s a ha =>
    cases y with
    | nan | infinite => cases hy
    | finite t b hb =>
      have hb0 : b ≠ 0 := by simpa [isZero] using h0
      simp only [rem, hb0, if_false]
      rfl

/-! ## (3) Zero -/

theorem isZero_round {negative : Bool} {num den : Nat} (h : 0 < num / den) :
    (round negative num den).isZero = false := by
  have := roundUnits_pos h
  unfold round
  split
  · simp only [isZero, beq_eq_false_iff_ne]
    omega
  · rfl

/-- Only the decimal zero is rounded to zero, among whole numbers. -/
theorem isZero_ofDecimal {n : Nat} : (ofDecimal ⟨n, 0⟩).isZero = true ↔ n = 0 := by
  constructor
  · intro h
    refine Classical.byContradiction fun h0 => ?_
    have hpos : 0 < n * Nat.pow 10 0 * one / 1 := by
      rw [Nat.div_one]
      exact Nat.mul_pos (by simpa using Nat.pos_of_ne_zero h0) one_pos
    have htop : ¬ ((0 : Int) + (Text.ofNat n).length < -330) := by omega
    simp only [ofDecimal, h0, htop, or_false, if_false, Int.le_refl, if_true] at h
    split at h
    · cases h
    · rw [Int.toNat_zero, ofRatio, isZero_round hpos] at h
      cases h
  · intro h
    subst h
    rfl

end Positional.Binary64
