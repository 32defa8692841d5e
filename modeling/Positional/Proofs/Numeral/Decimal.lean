/-
  Positional.Proofs.Numeral.Decimal — how close decimal digits come to their number.

  Only decimal products are rounded. A fraction below one has a product below ten, where half a step is
  2^-50, so one product is off by no more than that (`scaled_within`).

  What comes later counts a tenth. If the digits of the next fraction are within an error of it, those
  of this one are within a tenth of that error and of 2^-50, and 2^-50 / 9 is the error that repeats
  itself (`expansion_within`). It is less than 2^-53, whatever the number of digits
  (`decimals_stay_close`).
-/
import Mathlib.Tactic.Linarith
import Positional.Proofs.Binary64.Rounding
import Positional.Proofs.Numeral.Value

namespace Positional

open Binary64

/-! ## (1) Digits behind the point -/

/-- The number that digits behind the point denote. -/
def Radix.fraction (r : Radix) (ds : List Nat) : ℚ := r.number ds / r.base ^ ds.length

namespace Radix

variable (r : Radix)

theorem fraction_nil : r.fraction [] = 0 := by
  simp [fraction, number_nil]

theorem fraction_cons (d : Nat) (ds : List Nat) : r.fraction (d :: ds) = (d + r.fraction ds) / r.base := by
  have hpos := r.base_pos_rat
  rw [fraction, fraction, number_cons, List.length_cons, pow_succ]
  push_cast
  field_simp

theorem number_append_div (ds es : List Nat) :
    (r.number (ds ++ es) : ℚ) / r.base ^ es.length = r.number ds + r.fraction es := by
  have hpos := r.base_pos_rat
  rw [fraction, number_append]
  push_cast
  field_simp

end Radix

namespace Numeral

variable {r : Radix} {p u : Nat}

/-- The whole part is shown exactly, and the digits of the fraction come on top. -/
theorem magnitude_finite {s : Bool} {h : Representable u} {t : Text} (ht : (finite s u h).inRadix r p = .ok t) :
    magnitude r t = (u / one : ℕ) + r.fraction (expansion r p (u % one)) := by
  obtain ⟨n, hn, rfl⟩ := inRadix_eq_ok.mp ht
  rw [magnitude_text (digits_of_ofNumber hn).1, Radix.number_append_div]
  rw [ofNumber_finite] at hn
  split at hn
  · rename_i h0
    cases hn
    rw [h0, Nat.zero_div, Nat.zero_mod, expansion_zero]
    rfl
  · split at hn
    · cases hn
    · cases hn
      rw [number_digits]

/-! ## (2) One product -/

theorem step_product_le (hlt : u < one) : step (u * 10) ≤ twoPow 1025 := by
  have hprod : u * 10 < twoPow 1078 := by
    have hten : one * 10 < twoPow 1078 := by decide +kernel
    omega
  refine twoPow_le ?_
  by_cases h0 : u * 10 = 0
  · rw [h0]
    decide
  · have := (log2_lt_iff h0).mpr hprod
    omega

/-- A decimal product is off by 2^-50 at most. -/
theorem scaled_within (hlt : u < one) :
    (scaled .decimal u : ℚ) / one ≤ 10 * (u / one) + 1 / 2 ^ 50 ∧
      10 * ((u : ℚ) / one) ≤ scaled .decimal u / one + 1 / 2 ^ 50 := by
  have hstep := step_product_le hlt
  obtain ⟨hup, hdown⟩ := roundUnits_half (u * 10) Binary64.one_pos
  rw [Nat.mul_assoc] at hup hdown
  have hscaled : roundUnits (u * (10 * one)) one = scaled .decimal u := by rw [scaled, Radix.base]
  rw [hscaled] at hup hdown
  have hle : 2 * (scaled .decimal u : ℚ) ≤ 2 * (u * 10) + twoPow 1025 := by
    exact_mod_cast Nat.le_trans hup (Nat.add_le_add_left hstep _)
  have hge : 2 * ((u : ℚ) * 10) ≤ 2 * scaled .decimal u + twoPow 1025 := by
    exact_mod_cast Nat.le_trans hdown (Nat.add_le_add_left hstep _)
  -- 2^-50 is half of 2^1025 units
  have hone : one = twoPow 49 * twoPow 1025 := twoPow_add 49 1025
  have hhalf : (1 : ℚ) / 2 ^ 50 = twoPow 1025 / 2 / one := by
    have hpos : (0 : ℚ) < twoPow 1025 := by exact_mod_cast twoPow_pos 1025
    rw [hone, Nat.cast_mul, twoPow_eq 49]
    field_simp
    norm_num
  rw [hhalf, ← mul_div_assoc, ← add_div, ← add_div, div_le_div_iff_of_pos_right one_pos_rat,
    div_le_div_iff_of_pos_right one_pos_rat]
  constructor <;> linarith

/-! ## (3) All digits -/

/-- The error that a tenth of it and of 2^-50 give again. -/
theorem expansion_within (p : Nat) (h : Representable u) (hlt : u < one) :
    (u : ℚ) / one - 1 / 10 ^ p - 1 / (9 * 2 ^ 50) < Radix.decimal.fraction (expansion .decimal p u) ∧
      Radix.decimal.fraction (expansion .decimal p u) ≤ u / one + 1 / (9 * 2 ^ 50) := by
  induction p generalizing u with
  | zero =>
    have hfrac := div_one_lt_one hlt
    have hnonneg := div_one_nonneg u
    have hnil : expansion .decimal 0 u = [] := rfl
    rw [hnil, Radix.fraction_nil]
    constructor <;> linarith
  | succ p ih =>
    by_cases h0 : 0 < u
    · obtain ⟨hlow, hhigh⟩ := ih (representable_scaled_mod (r := .decimal) h hlt) (Nat.mod_lt _ Binary64.one_pos)
      obtain ⟨hup, hdown⟩ := scaled_within hlt
      -- the product is its digit and the next fraction
      have hsplit := units_div_one (scaled .decimal u)
      have hpow : (1 : ℚ) / 10 ^ (p + 1) = 1 / 10 ^ p / 10 := by rw [pow_succ, div_div]
      rw [expansion_succ p h0, Radix.fraction_cons, Radix.base, hpow]
      push_cast
      constructor <;> linarith
    · rw [Nat.eq_zero_of_not_pos h0, expansion_zero, Radix.fraction_nil, Nat.cast_zero, zero_div]
      have hpow : (0 : ℚ) < 1 / 10 ^ (p + 1) := by positivity
      constructor <;> linarith

end Numeral

/-! ## (4) The text of a number -/

namespace Binary64

open Numeral

/-- In decimal a number below 2^128 is shown cut off after the last place, and besides this not further off than
2^-53, however many places there are. -/
theorem decimals_stay_close {x : Binary64} (hx : x.isFinite = true) (hlt : |x.toRat| < 2 ^ 128) (p : Nat) :
    ∃ t, x.inRadix .decimal p = .ok t ∧ |x.toRat| - 1 / 10 ^ p - 1 / 2 ^ 53 < magnitude .decimal t ∧
      magnitude .decimal t ≤ |x.toRat| + 1 / 2 ^ 53 := by
  obtain ⟨t, ht⟩ := (exists_inRadix_iff .decimal p x).mpr ⟨hx, hlt⟩
  refine ⟨t, ht, ?_⟩
  cases x with
  | nan | infinite => cases hx
  | finite s u h =>
    obtain ⟨hlow, hhigh⟩ := expansion_within p (representable_mod h representable_one) (Nat.mod_lt u Binary64.one_pos)
    have hsplit : (u : ℚ) / one = (u / one : ℕ) + (u % one : ℕ) / one := units_div_one u
    rw [magnitude_finite ht, abs_toRat, hsplit]
    constructor <;> linarith

/-- The number nearest to minus seven tenths is smaller than its one digit says. -/
theorem decimals_stay_close_seven_tenths :
    let x : Binary64 := .finite true (6305039478318694 * twoPow 1021) (representable_scaled (by decide) (by decide))
    let t : Text := ['-', '0', '.', '7']
    x.isFinite = true ∧ |x.toRat| < 2 ^ 128 ∧ x.inRadix .decimal 20 = .ok t ∧ magnitude .decimal t = 7 / 10 ∧
      |x.toRat| < 7 / 10 ∧ (7 / 10 : ℚ) ≤ |x.toRat| + 1 / 2 ^ 53 := by
  intro x t
  have hx : |x.toRat| = 6305039478318694 / 2 ^ 53 := by
    rw [abs_toRat, scaled_div_one 6305039478318694 (j := 53) rfl]
    norm_num
  have hlt : |x.toRat| < 2 ^ 128 := by
    rw [hx]
    norm_num
  have ht : x.inRadix .decimal 20 = .ok t := by
    have hfraction : expansion .decimal 20 (6305039478318694 * twoPow 1021) = [7] := by decide +kernel
    rw [inRadix_below_one _ _ _ _ (by decide +kernel) (by decide +kernel), hfraction]
    rfl
  have hmagnitude : magnitude .decimal t = 7 / 10 := by
    have hnumber : Radix.decimal.number (t.filterMap Digit.value?) = 7 := by decide
    have hplaces : places t = 1 := by decide
    rw [magnitude, hnumber, hplaces, Radix.base]
    norm_num
  obtain ⟨t', ht', -, hhigh⟩ := decimals_stay_close rfl hlt 20
  obtain rfl : t = t' := Except.ok.inj (ht.symm.trans ht')
  rw [hmagnitude] at hhigh
  refine ⟨rfl, hlt, ht, hmagnitude, ?_, hhigh⟩
  rw [hx]
  norm_num

end Binary64

end Positional
