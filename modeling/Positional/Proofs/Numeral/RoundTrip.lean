/-
  Positional.Proofs.Numeral.RoundTrip — numbers that are read as they were written.

  Writing cuts a number off at the precision and reading is exact, where both compute without
  rounding:

  - in the radices that are powers of two, whatever the number, up to 1023 binary places behind
    the point (`read_back_cut_off`). From there on the weight of a digit is infinite;
  - in all radices for whole numbers up to 2^53. These are read back as themselves, and their digits
    are written back as they were but for leading zeros, letter case and the sign of zero
    (`whole_numbers_round_trip`).
-/
import Positional.Proofs.Numeral.Reading
import Positional.Proofs.Text.Cuts

namespace Positional

open Binary64

namespace Numeral

variable {r : Radix} {k : Nat}

/-! ## (1) Numbers cut off -/

/-- The number of characters behind the point. -/
def places (t : Text) : Nat := ((t.cutAt? '.').map (·.2.length)).getD 0

theorem places_spelling (negative : Bool) {whole fraction : Text} (hw : '.' ∉ whole) :
    places (spelling negative whole fraction) = fraction.length := by
  have hsign := point_notMem_signed negative hw
  unfold places spelling
  cases fraction with
  | nil =>
    rw [Text.cutAt?_eq_none (by simpa using hsign)]
    rfl
  | cons x fraction =>
    simp only [List.isEmpty_cons, Bool.false_eq_true, if_false, Text.cutAt?_append hsign]
    rfl

/-- The whole part and the fraction may be scaled apart from each other. -/
theorem mul_div_one (u b : Nat) : u * b / one = u % one * b / one + u / one * b := by
  have hu : u * b = u % one * b + u / one * b * one := by
    nth_rewrite 1 [← Nat.mod_add_div' u one]
    ring
  rw [hu, Nat.add_mul_div_right _ _ Binary64.one_pos]

section

variable (hk : r.base = twoPow k) {u : Nat} (h : Representable u) (p : Nat)
  (hlen : k * (expansion r p (u % one)).length ≤ 1023)

include hk h hlen

/-- The digits of a number denote what is left of its units, cut off at the last place. -/
theorem number_cut :
    let g := 1074 - k * (expansion r p (u % one)).length
    r.number (digits r (u / one)) * one + r.number (expansion r p (u % one)) * twoPow g = u / twoPow g * twoPow g := by
  intro g
  have hr := Radix.ne_decimal_iff.mpr ⟨k, hk⟩
  obtain ⟨hn, -⟩ := number_expansion_length hr p (representable_mod h representable_one) (Nat.mod_lt u Binary64.one_pos)
  have hone : one = r.base ^ (expansion r p (u % one)).length * twoPow g := one_eq_pow_mul hk (by omega)
  have hfraction : r.number (expansion r p (u % one)) = u % one / twoPow g := by
    rw [hn]
    nth_rewrite 3 [hone]
    rw [Nat.mul_comm, Nat.mul_div_mul_left _ _ (Nat.pow_pos r.base_pos)]
  have hu : u = u % one + u / one * r.base ^ (expansion r p (u % one)).length * twoPow g := by
    rw [Nat.mul_assoc, ← hone, Nat.add_comm, Nat.div_add_mod']
  have hdiv : u / twoPow g = u % one / twoPow g + u / one * r.base ^ (expansion r p (u % one)).length := by
    nth_rewrite 1 [hu]
    exact Nat.add_mul_div_right _ _ (twoPow_pos g)
  rw [number_digits, hfraction, hdiv, Nat.add_mul, Nat.mul_assoc (u / one), ← hone, Nat.add_comm]

/-- As a rational, this is the number cut off at the precision: behind the last place there is nothing left
or nothing allowed. -/
theorem toRat_cut (s : Bool) {h' : Representable u} :
    let g := 1074 - k * (expansion r p (u % one)).length
    (finite s (u / twoPow g * twoPow g) (representable_cut h g)).toRat = cutOff r.base p (finite s u h').toRat := by
  intro g
  have hr := Radix.ne_decimal_iff.mpr ⟨k, hk⟩
  have hn := number_expansion hr p (representable_mod h representable_one) (Nat.mod_lt u Binary64.one_pos)
  have hone : one = r.base ^ (expansion r p (u % one)).length * twoPow g := one_eq_pow_mul hk (by omega)
  have hpow : r.base ^ p =
      r.base ^ (expansion r p (u % one)).length * r.base ^ (p - (expansion r p (u % one)).length) := by
    rw [← pow_add, Nat.add_sub_cancel' (length_expansion_le _ _)]
  have hcross : u / twoPow g * twoPow g * r.base ^ p = u * r.base ^ p / one * one := by
    rw [← number_cut hk h p hlen, number_digits, mul_div_one, ← hn]
    generalize r.number (expansion r p (u % one)) = m
    calc (u / one * one + m * twoPow g) * r.base ^ p
        = u / one * one * r.base ^ p + m * r.base ^ (p - (expansion r p (u % one)).length) *
            (r.base ^ (expansion r p (u % one)).length * twoPow g) := by
          rw [hpow]
          ring
      _ = (m * r.base ^ (p - (expansion r p (u % one)).length) + u / one * r.base ^ p) * one := by
          rw [← hone]
          ring
  have hquot : ((u / twoPow g * twoPow g : ℕ) : ℚ) / one = (u * r.base ^ p / one : ℕ) / r.base ^ p := by
    have hbase : (0 : ℚ) < r.base ^ p := pow_pos (by exact_mod_cast r.base_pos) p
    rw [div_eq_div_iff one_pos_rat.ne' hbase.ne']
    exact_mod_cast hcross
  rw [toRat_finite, cutOff_finite, hquot]

end

end Numeral

/-! ## (2) Radices that are powers of two -/

namespace Binary64

open Numeral

theorem read_inRadix {r : Radix} {k : Nat} (hk : r.base = twoPow k) (s : Bool) {u : Nat} (h : Representable u)
    (p : Nat) {t : Text} (ht : (finite s u h).inRadix r p = .ok t) (hlen : k * places t ≤ 1023) :
    ∃ y, Numeral.read r t = .ok y ∧ y.isFinite = true ∧ y.toRat = cutOff r.base p (finite s u h).toRat := by
  rw [inRadix_finite] at ht
  by_cases h0 : u = 0
  · rw [if_pos h0] at ht
    obtain ⟨h', hread⟩ := read_digits r false (Nat.zero_le (twoPow 53))
    have hx : (finite s u h).toRat = 0 := (isZero_iff _ rfl).mp (beq_iff_eq.mpr h0)
    have hy : (finite false (0 * one) h').toRat = 0 := (isZero_iff _ rfl).mp (beq_iff_eq.mpr (Nat.zero_mul one))
    rw [digits_zero] at hread
    cases ht
    refine ⟨_, hread, rfl, ?_⟩
    rw [hx, hy]
    simp [cutOff]
  · rw [if_neg h0] at ht
    split at ht
    · cases ht
    · let n : Numeral := ⟨s, digits r (u / one), expansion r p (u % one)⟩
      have hn : t = n.text := (Except.ok.inj ht).symm
      have hplaces : places t = n.fraction.length := by
        have hpoint : '.' ∉ n.whole.map Digit.symbol := Digit.notMem_of_isDigit (isDigit_symbol_digits r _) rfl
        rw [hn, text_eq, places_spelling _ hpoint, List.length_map]
      rw [hplaces] at hlen
      have hread := read_numeral hk (n := n) (digits_ne_nil _) (digits_expansion_lt p h) hlen
        (number_cut hk h p hlen).symm (representable_cut h _)
      exact ⟨_, hn ▸ hread, rfl, toRat_cut hk h p hlen s⟩

/-- In a radix that is a power of two, a number below 2^128 is read back as what its precision leaves of it,
and as itself if this is all. -/
theorem read_back_cut_off {r : Radix} {k : Nat} (hk : r.base = 2 ^ k) {x : Binary64} (hx : x.isFinite = true)
    (hlt : |x.toRat| < 2 ^ 128) (p : Nat) :
    ∃ t, x.inRadix r p = .ok t ∧ (k * places t ≤ 1023 →
      ∃ y, Numeral.read r t = .ok y ∧ y.isFinite = true ∧ y.toRat = cutOff r.base p x.toRat ∧
        ((∃ m : ℤ, x.toRat = m / r.base ^ p) → y.toRat = x.toRat)) := by
  obtain ⟨t, ht⟩ := (exists_inRadix_iff r p x).mpr ⟨hx, hlt⟩
  refine ⟨t, ht, fun hlen => ?_⟩
  cases x with
  | nan | infinite => cases hx
  | finite s u h =>
    obtain ⟨y, hread, hfinite, hy⟩ := read_inRadix hk s h p ht hlen
    refine ⟨y, hread, hfinite, hy, fun ⟨m, hm⟩ => ?_⟩
    rw [hy, cutOff_of_multiple r.base_pos hm]

/-- 10.625 keeps two binary places. -/
theorem read_back_cut_off_two_places :
    let x : Binary64 := .finite true (85 * twoPow 1071) (representable_scaled (by decide) (by decide))
    let t : Text := ['-', '1', '0', '1', '0', '.', '1', '0']
    x.isFinite = true ∧ |x.toRat| < 2 ^ 128 ∧ x.toRat = -85 / 8 ∧ x.inRadix .binary 2 = .ok t ∧ 1 * places t ≤ 1023 ∧
      ∃ y, Numeral.read .binary t = .ok y ∧ y.isFinite = true ∧ y.toRat = -21 / 2 := by
  intro x t
  have hx : x.toRat = -85 / 8 := by
    have hone : one = twoPow 3 * twoPow 1071 := twoPow_add 3 1071
    have hpos : (0 : ℚ) < twoPow 1071 := by exact_mod_cast twoPow_pos 1071
    rw [toRat_finite, if_pos rfl, hone, Nat.cast_mul, Nat.cast_mul, mul_div_mul_right _ _ hpos.ne', twoPow_eq]
    norm_num
  have hlt : |x.toRat| < 2 ^ 128 := by
    rw [hx]
    norm_num
  have ht : x.inRadix .binary 2 = .ok t := by
    have hwhole : 85 * twoPow 1071 / one = 10 := by decide +kernel
    have hfraction : expansion .binary 2 (85 * twoPow 1071 % one) = [1, 0] := by decide +kernel
    have hdigits : digits .binary 10 = [1, 0, 1, 0] := by
      rw [digits_eq (by decide)]
      rfl
    rw [inRadix_finite, if_neg (by decide +kernel), hwhole, if_neg (by decide), hfraction, hdigits]
    rfl
  obtain ⟨t', ht', hread⟩ := read_back_cut_off (r := .binary) (k := 1) rfl (x := x) rfl hlt 2
  obtain rfl : t = t' := Except.ok.inj (ht.symm.trans ht')
  obtain ⟨y, hy, hfinite, hcut, -⟩ := hread (by decide)
  refine ⟨rfl, hlt, hx, ht, by decide, y, hy, hfinite, ?_⟩
  have hfloor : ⌊|(-85 / 8 : ℚ)| * (2 : ℕ) ^ 2⌋ = 42 := by norm_num
  have hsign : SignType.sign (-85 / 8 : ℚ) = -1 := sign_neg (by norm_num)
  rw [hcut, hx, cutOff, Radix.base, hfloor, hsign]
  norm_num

end Binary64

/-! ## (3) Whole numbers -/

namespace Numeral

/-- The numeral of a whole number. -/
def integer (r : Radix) (m : ℤ) : Text := spelling (decide (m < 0)) ((digits r m.natAbs).map Digit.symbol) []

theorem natAbs_le_twoPow {m : ℤ} (h : |m| ≤ 2 ^ 53) : m.natAbs ≤ twoPow 53 := by
  rw [twoPow_eq]
  zify
  exact h

theorem read_integer (r : Radix) {m : ℤ} (hle : |m| ≤ 2 ^ 53) :
    ∃ h, read r (integer r m) = .ok (.finite (decide (m < 0)) (m.natAbs * one) h) :=
  read_digits r _ (natAbs_le_twoPow hle)

theorem integer_eq (r : Radix) (m : ℤ) :
    let ds := (digits r m.natAbs).map Digit.symbol
    integer r m = if decide (m < 0) then '-' :: ds else ds := by
  unfold integer spelling
  cases decide (m < 0) <;> simp

theorem integer_neg (r : Radix) {n : Nat} (h : n ≠ 0) :
    integer r (-n) = '-' :: (Nat.digits r.base n).reverse.map Digit.symbol := by
  have hneg : (-n : ℤ) < 0 := by omega
  rw [integer_eq, decide_eq_true hneg, Int.natAbs_neg, Int.natAbs_natCast, digits_eq h]
  rfl

/-- Only zero has no sign of its own. -/
theorem integer_signed (r : Radix) (negative : Bool) (n : Nat) :
    integer r (if negative then -n else n) =
      if n = 0 then ['0'] else (if negative then ['-'] else []) ++ (digits r n).map Digit.symbol := by
  have habs : (if negative then -n else n : ℤ).natAbs = n := by
    cases negative <;> simp
  have hsign : decide ((if negative then -n else n : ℤ) < 0) = (negative && n != 0) := by
    cases negative with
    | false => simp
    | true =>
      have hne : (-n : ℤ) < 0 ↔ (n != 0) = true := by
        rw [bne_iff_ne]
        omega
      rw [if_pos rfl, Bool.true_and, Bool.eq_iff_iff, decide_eq_true_iff, hne]
  rw [integer, habs, hsign, spelling, List.isEmpty_nil, if_pos rfl, List.append_nil]
  by_cases h0 : n = 0
  · rw [if_pos h0, h0, digits_zero, bne_self_eq_false, Bool.and_false]
    rfl
  · have hne : (n != 0) = true := by simpa using h0
    rw [if_neg h0, hne, Bool.and_true]

end Numeral

namespace Binary64

open Numeral

theorem toRat_whole (negative : Bool) {n : Nat} (h : Representable (n * one)) :
    (finite negative (n * one) h).toRat = ((if negative then -n else n : ℤ) : ℚ) := by
  rw [toRat_finite, Nat.cast_mul, mul_div_cancel_right₀ _ one_pos_rat.ne']
  cases negative <;> simp

theorem toRat_integer {m : ℤ} (h : Representable (m.natAbs * one)) :
    (finite (decide (m < 0)) (m.natAbs * one) h).toRat = m := by
  rw [toRat_whole]
  congr 1
  by_cases hm : m < 0
  · rw [decide_eq_true hm, if_pos rfl]
    omega
  · rw [decide_eq_false hm, if_neg Bool.false_ne_true]
    omega

/-- Whole numbers are written without a point. -/
theorem inRadix_whole (r : Radix) (p : Nat) {x : Binary64} (hx : x.isFinite = true) {m : ℤ} (hm : x.toRat = m)
    (hle : |m| ≤ 2 ^ 53) : x.inRadix r p = .ok (integer r m) := by
  cases x with
  | nan | infinite => cases hx
  | finite s u h =>
    have hu : u = m.natAbs * one := by
      have habs : (u : ℚ) / one = (m.natAbs : ℕ) := by
        rw [← abs_toRat (h := h), hm, Nat.cast_natAbs, Int.cast_abs]
      rw [div_eq_iff one_pos_rat.ne', ← Nat.cast_mul] at habs
      exact Nat.cast_injective habs
    have hwhole : u / one = m.natAbs := by rw [hu, Nat.mul_div_cancel _ Binary64.one_pos]
    have hfraction : u % one = 0 := by rw [hu, Nat.mul_mod_left]
    rw [inRadix_finite, hwhole, hfraction, expansion_zero, text_eq]
    by_cases h0 : u = 0
    · have hm0 : m.natAbs = 0 := by rw [← hwhole, h0, Nat.zero_div]
      rw [if_pos h0, integer, hm0, digits_zero, decide_eq_false (by omega)]
      rfl
    · have hs : decide (m < 0) = s := by
        have hlt : decide (m < 0) = isBelowZero (finite s u h) := by
          rw [Bool.eq_iff_iff, decide_eq_true_iff, isBelowZero_iff _ rfl, hm, Int.cast_lt_zero]
        have hne : (u != 0) = true := by simpa using h0
        rw [hlt, isBelowZero, hne, Bool.and_true]
      have hlt : m.natAbs < twoPow 128 := Nat.lt_of_le_of_lt (natAbs_le_twoPow hle) (twoPow_lt (by decide))
      rw [if_neg h0, if_neg (Nat.not_le.mpr hlt), integer, hs]
      rfl

/-- Whole numbers up to 2^53 are written so that they are read back, and read so that they are written back:
in upper case, without leading zeros, and zero without a sign. -/
theorem whole_numbers_round_trip (r : Radix) (p : Nat) :
    (∀ (x : Binary64) (m : ℤ), x.isFinite = true → x.toRat = m → |m| ≤ 2 ^ 53 →
      ∃ t y, x.inRadix r p = .ok t ∧ Numeral.read r t = .ok y ∧ y.isFinite = true ∧ y.toRat = x.toRat) ∧
    ∀ (negative : Bool) (s : Text) (ds : List Nat), s ≠ [] → s.mapM r.readDigit = .ok ds → r.number ds ≤ 2 ^ 53 →
      let sign : Text := if negative then ['-'] else []
      ∃ y, Numeral.read r (sign ++ s) = .ok y ∧ y.isFinite = true ∧
        y.toRat = (if negative then -1 else 1) * r.number ds ∧
        y.inRadix r p = .ok (if r.number ds = 0 then ['0'] else sign ++ s.upperCase.dropWhile (· == '0')) := by
  constructor
  · intro x m hx hm hle
    obtain ⟨h, hread⟩ := read_integer r hle
    exact ⟨_, _, inRadix_whole r p hx hm hle, hread, rfl, by rw [toRat_integer, hm]⟩
  · intro negative s ds hs hds hle sign
    obtain ⟨h, hread⟩ := read_whole negative hs hds hle
    have hspelled : spelling negative s [] = sign ++ s := List.append_nil _
    have hvalue := toRat_whole negative h
    have habs : |(if negative then -r.number ds else r.number ds : ℤ)| ≤ 2 ^ 53 := by
      have hcast : (r.number ds : ℤ) ≤ 2 ^ 53 := by exact_mod_cast hle
      cases negative <;> simpa using hcast
    rw [hspelled] at hread
    refine ⟨_, hread, rfl, ?_, ?_⟩
    · rw [hvalue]
      cases negative <;> simp
    · rw [inRadix_whole r p rfl hvalue habs, integer_signed]
      by_cases h0 : r.number ds = 0
      · rw [if_pos h0, if_pos h0]
      · have hlt := Radix.lt_base_of_mapM_readDigit hds
        rw [if_neg h0, if_neg h0, digits_number hlt h0, Radix.upperCase_of_mapM_readDigit hds,
          Digit.dropWhile_symbol fun d hd => Nat.lt_of_lt_of_le (hlt d hd) r.base_le]

/-- The hexadecimal 00ff below zero. -/
theorem whole_numbers_round_trip_minus_255 :
    let x : Binary64 := .finite true (255 * one) (representable_ofNat (by decide))
    (x.isFinite = true ∧ x.toRat = (-255 : ℤ) ∧ |(-255 : ℤ)| ≤ 2 ^ 53 ∧ ∃ t y,
      x.inRadix .hexadecimal 0 = .ok t ∧ Numeral.read .hexadecimal t = .ok y ∧ y.isFinite = true ∧ y.toRat = x.toRat) ∧
    ['0', '0', 'f', 'f'].mapM Radix.hexadecimal.readDigit = .ok [0, 0, 15, 15] ∧
      Radix.hexadecimal.number [0, 0, 15, 15] = 255 ∧
      ∃ y, Numeral.read .hexadecimal ['-', '0', '0', 'f', 'f'] = .ok y ∧ y.isFinite = true ∧ y.toRat = -255 ∧
        y.inRadix .hexadecimal 0 = .ok ['-', 'F', 'F'] := by
  intro x
  have hx : x.toRat = (-255 : ℤ) := by
    rw [toRat_whole]
    norm_num
  have hds : ['0', '0', 'f', 'f'].mapM Radix.hexadecimal.readDigit = .ok [0, 0, 15, 15] := by decide
  have hnumber : Radix.hexadecimal.number [0, 0, 15, 15] = 255 := by decide
  obtain ⟨hwritten, hdigits⟩ := whole_numbers_round_trip .hexadecimal 0
  obtain ⟨y, hread, hfinite, hy, hback⟩ := hdigits true ['0', '0', 'f', 'f'] [0, 0, 15, 15] (by decide) hds (by decide)
  refine ⟨⟨rfl, hx, by decide, hwritten x (-255) rfl hx (by decide)⟩, hds, hnumber, y, hread, hfinite, ?_, hback⟩
  rw [hy, hnumber]
  norm_num

end Binary64

end Positional
