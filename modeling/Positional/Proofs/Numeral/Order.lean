/-
  Positional.Proofs.Numeral.Order — numerals are in the order of their numbers.

  Decimal digits come from rounded products, so they are not the digits of the number itself. But
  rounding keeps the order of products, and so do the digits: of two fractions the first digits tie and
  the rests are in order again, or the first digits decide (`inOrder`). It does not matter whether the
  digits of one of them end early, because an end stands for zeros.

  Whole parts are compared in the same way as digits (`InOrder.shown_le`), and signs come last: below
  zero the larger magnitude is the smaller number (`written_in_order`).
-/
import Positional.Proofs.Numeral.Decimal
import Positional.Proofs.Numeral.Expansion

namespace Positional

open Binary64

namespace Radix

variable {r : Radix} {ds : List Nat}

theorem fraction_nonneg : 0 ≤ r.fraction ds := by
  have hpos := r.base_pos_rat
  rw [fraction]
  positivity

theorem fraction_lt_one (h : ∀ d ∈ ds, d < r.base) : r.fraction ds < 1 := by
  have hpos : (0 : ℚ) < r.base ^ ds.length := pow_pos r.base_pos_rat _
  rw [fraction, div_lt_one hpos]
  exact_mod_cast number_lt h

end Radix

namespace Numeral

variable {r : Radix} {p m n u : Nat}

/-! ## (1) What is shown of a count -/

/-- The number that is shown of `n` units: the whole part, and up to `p` digits of the rest. -/
def shown (r : Radix) (p n : Nat) : ℚ := (n / one : ℕ) + r.fraction (expansion r p (n % one))

theorem shown_zero (r : Radix) (p : Nat) : shown r p 0 = 0 := by
  rw [shown, Nat.zero_div, Nat.zero_mod, expansion_zero, Radix.fraction_nil, Nat.cast_zero, add_zero]

theorem scaled_zero (r : Radix) : scaled r 0 = 0 := by
  have hexact := roundUnits_of_representable representable_zero Binary64.one_pos
  rw [Nat.zero_mul] at hexact
  rw [scaled, Nat.zero_mul, hexact]

/-- A fraction is shown as a part of what is shown of its product with the base. -/
theorem fraction_expansion_succ (p u : Nat) : r.fraction (expansion r (p + 1) u) = shown r p (scaled r u) / r.base := by
  by_cases h0 : 0 < u
  · rw [expansion_succ p h0, Radix.fraction_cons, shown]
  · rw [Nat.eq_zero_of_not_pos h0, expansion_zero, Radix.fraction_nil, scaled_zero, shown_zero, zero_div]

/-! ## (2) Two runs of the digits -/

/-- Fractions with up to `p` digits are shown in their order. -/
def InOrder (r : Radix) (p : Nat) : Prop :=
  ∀ u v, Representable u → Representable v → u ≤ v → v < one →
    r.fraction (expansion r p u) ≤ r.fraction (expansion r p v)

/-- Whole parts decide; if they tie, the rests do. -/
theorem InOrder.shown_le (h : InOrder r p) (hm : Representable m) (hn : Representable n) (hle : m ≤ n) :
    shown r p m ≤ shown r p n := by
  have hm' := representable_mod hm representable_one
  have hn' := representable_mod hn representable_one
  have hmlt := Nat.mod_lt m Binary64.one_pos
  have hnlt := Nat.mod_lt n Binary64.one_pos
  rcases Nat.lt_or_eq_of_le (Nat.div_le_div_right (c := one) hle) with hlt | heq
  · have hnext : ((m / one : ℕ) : ℚ) + 1 ≤ (n / one : ℕ) := by exact_mod_cast hlt
    calc shown r p m ≤ (m / one : ℕ) + 1 := add_le_add_right (Radix.fraction_lt_one (expansion_lt p hm' hmlt)).le _
      _ ≤ (n / one : ℕ) := hnext
      _ ≤ shown r p n := le_add_of_nonneg_right Radix.fraction_nonneg
  · have hrests : m % one ≤ n % one := by
      have hm := Nat.div_add_mod' m one
      have hn := Nat.div_add_mod' n one
      rw [heq] at hm
      omega
    rw [shown, shown, heq]
    exact add_le_add_right (h _ _ hm' hn' hrests hnlt) _

theorem inOrder (r : Radix) (p : Nat) : InOrder r p := by
  induction p with
  | zero => exact fun _ _ _ _ _ _ => le_refl _
  | succ p ih =>
    intro u v hu hv hle hlt
    have hproducts : shown r p (scaled r u) ≤ shown r p (scaled r v) :=
      ih.shown_le (representable_product hu (Nat.lt_of_le_of_lt hle hlt)) (representable_product hv hlt)
        (scaled_mono r hle)
    rw [fraction_expansion_succ, fraction_expansion_succ]
    exact div_le_div_of_nonneg_right hproducts r.base_pos_rat.le

/-! ## (3) The text of a number -/

/-- The larger of two numbers, their signs aside, shows the larger magnitude. -/
theorem magnitude_mono {x y : Binary64} (hx : x.isFinite = true) (hy : y.isFinite = true)
    (hle : |x.toRat| ≤ |y.toRat|) {t t' : Text} (ht : x.inRadix r p = .ok t) (ht' : y.inRadix r p = .ok t') :
    magnitude r t ≤ magnitude r t' := by
  cases x with
  | nan | infinite => cases hx
  | finite s m hm =>
    cases y with
    | nan | infinite => cases hy
    | finite s' n hn =>
      rw [abs_toRat, abs_toRat, div_le_div_iff_of_pos_right one_pos_rat, Nat.cast_le] at hle
      rw [magnitude_finite ht, magnitude_finite ht']
      exact (inOrder r p).shown_le hm hn hle

theorem magnitude_nonneg (r : Radix) (t : Text) : 0 ≤ magnitude r t := by
  have hpos := r.base_pos_rat
  rw [magnitude]
  positivity

theorem value_of_neg {x : Binary64} (hx : x.isFinite = true) {t : Text} (ht : x.inRadix r p = .ok t)
    (hneg : x.toRat < 0) : value r t = -magnitude r t := by
  rw [value, if_pos ((head?_inRadix hx ht).mpr hneg), neg_one_mul]

theorem value_of_nonneg {x : Binary64} (hx : x.isFinite = true) {t : Text} (ht : x.inRadix r p = .ok t)
    (hnonneg : 0 ≤ x.toRat) : value r t = magnitude r t := by
  rw [value, if_neg (mt (head?_inRadix hx ht).mp hnonneg.not_gt), one_mul]

end Numeral

namespace Binary64

open Numeral

/-- In every radix and with every precision, the numerals of two numbers below 2^128 denote numbers in the same order.
In decimal they need not be the numbers cut off. -/
theorem written_in_order (r : Radix) (p : Nat) {x y : Binary64} (hx : x.isFinite = true) (hy : y.isFinite = true)
    (hltx : |x.toRat| < 2 ^ 128) (hlty : |y.toRat| < 2 ^ 128) (hle : x.toRat ≤ y.toRat) :
    ∃ t t', x.inRadix r p = .ok t ∧ y.inRadix r p = .ok t' ∧ value r t ≤ value r t' := by
  obtain ⟨t, ht⟩ := (exists_inRadix_iff r p x).mpr ⟨hx, hltx⟩
  obtain ⟨t', ht'⟩ := (exists_inRadix_iff r p y).mpr ⟨hy, hlty⟩
  refine ⟨t, t', ht, ht', ?_⟩
  rcases lt_or_ge x.toRat 0 with hnegx | hposx
  · rcases lt_or_ge y.toRat 0 with hnegy | hposy
    · have habs : |y.toRat| ≤ |x.toRat| := by
        rw [abs_of_neg hnegx, abs_of_neg hnegy]
        exact neg_le_neg hle
      rw [value_of_neg hx ht hnegx, value_of_neg hy ht' hnegy]
      exact neg_le_neg (magnitude_mono hy hx habs ht' ht)
    · rw [value_of_neg hx ht hnegx, value_of_nonneg hy ht' hposy]
      exact (neg_nonpos.mpr (magnitude_nonneg r t)).trans (magnitude_nonneg r t')
  · have hposy := hposx.trans hle
    have habs : |x.toRat| ≤ |y.toRat| := by
      rw [abs_of_nonneg hposx, abs_of_nonneg hposy]
      exact hle
    rw [value_of_nonneg hx ht hposx, value_of_nonneg hy ht' hposy]
    exact magnitude_mono hx hy habs ht ht'

/-- The number nearest to minus seven tenths has one decimal digit, and the next larger number has many. -/
theorem written_in_order_seven_tenths :
    let x : Binary64 := .finite true (6305039478318694 * twoPow 1021) (representable_scaled (by decide) (by decide))
    let y : Binary64 := .finite true (6305039478318693 * twoPow 1021) (representable_scaled (by decide) (by decide))
    let t : Text := ['-', '0', '.', '7']
    let t' : Text := ['-', '0', '.', '6', '9', '9']
    x.isFinite = true ∧ y.isFinite = true ∧ |x.toRat| < 2 ^ 128 ∧ |y.toRat| < 2 ^ 128 ∧ x.toRat ≤ y.toRat ∧
      x.inRadix .decimal 3 = .ok t ∧ y.inRadix .decimal 3 = .ok t' ∧ value .decimal t ≤ value .decimal t' := by
  intro x y t t'
  have hx : x.toRat = -(6305039478318694 / 2 ^ 53) := by
    rw [toRat_finite, if_pos rfl, scaled_div_one 6305039478318694 (j := 53) rfl, neg_one_mul, Nat.cast_ofNat]
  have hy : y.toRat = -(6305039478318693 / 2 ^ 53) := by
    rw [toRat_finite, if_pos rfl, scaled_div_one 6305039478318693 (j := 53) rfl, neg_one_mul, Nat.cast_ofNat]
  have hltx : |x.toRat| < 2 ^ 128 := by
    rw [hx]
    norm_num
  have hlty : |y.toRat| < 2 ^ 128 := by
    rw [hy]
    norm_num
  have hle : x.toRat ≤ y.toRat := by
    rw [hx, hy]
    norm_num
  have ht : x.inRadix .decimal 3 = .ok t := by
    have hfraction : expansion .decimal 3 (6305039478318694 * twoPow 1021) = [7] := by decide +kernel
    rw [inRadix_below_one _ _ _ _ (by decide +kernel) (by decide +kernel), hfraction]
    rfl
  have ht' : y.inRadix .decimal 3 = .ok t' := by
    have hfraction : expansion .decimal 3 (6305039478318693 * twoPow 1021) = [6, 9, 9] := by decide +kernel
    rw [inRadix_below_one _ _ _ _ (by decide +kernel) (by decide +kernel), hfraction]
    rfl
  obtain ⟨u, u', hu, hu', hvalue⟩ := written_in_order .decimal 3 rfl rfl hltx hlty hle
  obtain rfl : t = u := Except.ok.inj (ht.symm.trans hu)
  obtain rfl : t' = u' := Except.ok.inj (ht'.symm.trans hu')
  exact ⟨rfl, rfl, hltx, hlty, hle, ht, ht', hvalue⟩

end Binary64

end Positional
