/-
  Positional.Proofs.Binary64.Rational — finite numbers as rationals.

  A number of `n` units is the rational `n / 2^1074`, with its sign (`toRat`). Both zeros are the
  rational zero, so equal rationals are numbers that compare equal. The tests on numbers are the
  tests on their rationals (`isBelowZero_iff`, `isZero_iff`, `wholePart_eq`, `wholePart_lt_iff`).

  `cutOff b p q` is `q` without what lies behind its first `p` places in base `b`. It moves a
  number towards zero and leaves multiples of `b^-p` as they are (`cutOff_of_multiple`).
-/
import Mathlib.Algebra.Order.Floor.Semifield
import Mathlib.Data.Rat.Floor
import Mathlib.Data.Sign.Basic
import Mathlib.Tactic.FieldSimp
import Mathlib.Tactic.Positivity
import Positional.Proofs.Binary64.Exact

namespace Positional.Binary64

/-- A finite number as a rational; the others stand for zero. -/
def toRat : Binary64 → ℚ
  | finite negative units _ => signed negative units / one
  | _ => 0

/-! ## (1) Signs and sizes -/

theorem one_pos_rat : (0 : ℚ) < one := by exact_mod_cast one_pos

theorem twoPow_eq (k : Nat) : twoPow k = 2 ^ k := rfl

/-- The whole part of a count, and the rest. -/
theorem units_div_one (n : Nat) : (n : ℚ) / one = (n / one : ℕ) + (n % one : ℕ) / one := by
  have hdiv : ((n / one * one + n % one : ℕ) : ℚ) = n := by rw [Nat.div_add_mod']
  rw [← hdiv, Nat.cast_add, Nat.cast_mul, add_div, mul_div_cancel_right₀ _ one_pos_rat.ne']

theorem div_one_nonneg (n : Nat) : (0 : ℚ) ≤ n / one := div_nonneg n.cast_nonneg one_pos_rat.le

theorem div_one_lt_one {n : Nat} (h : n < one) : (n : ℚ) / one < 1 := (div_lt_one one_pos_rat).mpr (Nat.cast_lt.mpr h)

/-- A number with `j` binary places behind the point. -/
theorem scaled_div_one (m : Nat) {j k : Nat} (h : j + k = 1074) : ((m * twoPow k : ℕ) : ℚ) / one = m / 2 ^ j := by
  have hone : one = twoPow j * twoPow k := by rw [← twoPow_add, h, one]
  have hpos : (0 : ℚ) < twoPow k := by exact_mod_cast twoPow_pos k
  rw [hone, Nat.cast_mul, Nat.cast_mul, mul_div_mul_right _ _ hpos.ne', twoPow_eq, Nat.cast_pow, Nat.cast_ofNat]

variable {negative : Bool} {units : Nat} {h : Representable units}

theorem toRat_finite : (finite negative units h).toRat = (if negative then -1 else 1) * (units / one) := by
  cases negative with
  | false => rw [toRat, signed, if_neg Bool.false_ne_true, if_neg Bool.false_ne_true, one_mul, Int.cast_natCast]
  | true => rw [toRat, signed, if_pos rfl, if_pos rfl, neg_one_mul, Int.cast_neg, Int.cast_natCast, neg_div]

theorem abs_toRat : |(finite negative units h).toRat| = units / one := by
  have hpos : (0 : ℚ) ≤ units / one := by positivity
  cases negative with
  | false => rw [toRat_finite, if_neg Bool.false_ne_true, one_mul, abs_of_nonneg hpos]
  | true => rw [toRat_finite, if_pos rfl, neg_one_mul, abs_neg, abs_of_nonneg hpos]

/-- A count is on the grid if some finite number has its value. -/
theorem representable_of_toRat {x : Binary64} (hx : x.isFinite = true)
    (hvalue : x.toRat = (if negative then -1 else 1) * (units / one)) : Representable units := by
  cases x with
  | nan | infinite => cases hx
  | finite s n hn =>
    have habs := congrArg (|·|) hvalue
    have hsign : |(if negative then -1 else 1 : ℚ)| = 1 := by cases negative <;> simp
    rw [abs_mul, hsign, one_mul, abs_of_nonneg (div_one_nonneg _), abs_toRat, div_left_inj' one_pos_rat.ne',
      Nat.cast_inj] at habs
    rwa [← habs]

theorem units_pos_iff : (0 : ℚ) < units / one ↔ units ≠ 0 := by
  rw [lt_div_iff₀ one_pos_rat, zero_mul, Nat.cast_pos, Nat.pos_iff_ne_zero]

theorem isBelowZero_iff (x : Binary64) (hx : x.isFinite = true) : x.isBelowZero = true ↔ x.toRat < 0 := by
  cases x with
  | nan | infinite => cases hx
  | finite s u h =>
    have hpos : (0 : ℚ) ≤ u / one := by positivity
    cases s with
    | false =>
      rw [toRat_finite, if_neg Bool.false_ne_true, one_mul]
      exact ⟨fun hb => absurd hb Bool.false_ne_true, fun hlt => absurd hlt (not_lt.mpr hpos)⟩
    | true =>
      rw [isBelowZero, toRat_finite, Bool.true_and, bne_iff_ne, if_pos rfl, neg_one_mul, neg_lt_zero]
      exact units_pos_iff.symm

theorem toRat_neg_iff : (finite negative units h).toRat < 0 ↔ negative = true ∧ units ≠ 0 := by
  rw [← isBelowZero_iff _ rfl, isBelowZero, Bool.and_eq_true, bne_iff_ne]

theorem decide_neg_of_ne (h0 : units ≠ 0) : decide ((finite negative units h).toRat < 0) = negative := by
  rw [Bool.eq_iff_iff, decide_eq_true_iff, toRat_neg_iff, and_iff_left h0]

theorem decide_neg_of_eq (h0 : units = 0) : decide ((finite negative units h).toRat < 0) = false :=
  decide_eq_false fun hneg => (toRat_neg_iff.mp hneg).2 h0

theorem isZero_iff (x : Binary64) (hx : x.isFinite = true) : x.isZero = true ↔ x.toRat = 0 := by
  cases x with
  | nan | infinite => cases hx
  | finite s u h =>
    rw [← abs_eq_zero, abs_toRat, div_eq_zero_iff, or_iff_left one_pos_rat.ne', Nat.cast_eq_zero, isZero, beq_iff_eq]

theorem wholePart_eq (x : Binary64) : x.wholePart = ⌊|x.toRat|⌋₊ := by
  cases x with
  | nan | infinite => simp [wholePart, toRat]
  | finite s u h => rw [abs_toRat, Nat.floor_div_eq_div, wholePart]

theorem wholePart_lt_iff (x : Binary64) (k : Nat) : x.wholePart < twoPow k ↔ |x.toRat| < 2 ^ k := by
  rw [wholePart_eq, Nat.floor_lt (abs_nonneg _), twoPow_eq]
  push_cast
  rfl

/-! ## (2) Numbers cut off -/

/-- The first `p` places of `q` in base `b`, the rest cut off. -/
def cutOff (b p : ℕ) (q : ℚ) : ℚ := SignType.sign q * (⌊|q| * b ^ p⌋ / b ^ p)

theorem cutOff_of_multiple {b p : ℕ} (hb : 0 < b) {q : ℚ} {m : ℤ} (hq : q = m / b ^ p) : cutOff b p q = q := by
  have hpow : (0 : ℚ) < b ^ p := by positivity
  have habs : |q| * b ^ p = (|m| : ℤ) := by
    rw [hq, abs_div, abs_of_pos hpow, div_mul_cancel₀ _ hpow.ne', Int.cast_abs]
  rw [cutOff, habs, Int.floor_intCast, ← habs, mul_div_cancel_right₀ _ hpow.ne', sign_mul_abs]

theorem cutOff_finite {b p : ℕ} :
    cutOff b p (finite negative units h).toRat =
      (if negative then -1 else 1) * ((units * b ^ p / one : ℕ) / b ^ p) := by
  have hfloor : ⌊|(finite negative units h).toRat| * b ^ p⌋ = (units * b ^ p / one : ℕ) := by
    rw [abs_toRat, div_mul_eq_mul_div]
    exact_mod_cast Rat.floor_natCast_div_natCast (units * b ^ p) one
  rw [cutOff, hfloor, Int.cast_natCast]
  by_cases h0 : units = 0
  · simp [h0]
  · have hpos := units_pos_iff.mpr h0
    cases negative
    · rw [toRat_finite, if_neg Bool.false_ne_true, one_mul, sign_pos hpos, SignType.coe_one]
    · rw [toRat_finite, if_pos rfl, neg_one_mul, Left.sign_neg, sign_pos hpos, SignType.coe_neg, SignType.coe_one]

end Positional.Binary64
