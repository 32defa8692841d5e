/-
  Positional.Proofs.Numeral.Expansion — the digits behind the point, and how many there are.

  `exactDigits r p q` are the first `p` digits of `q` behind the point, nothing rounded. In a radix that is
  a power of two a number is written with these digits. If no more of them follow, the zeros at their
  end are left out (`expansion_eq`).

  The digits end in every radix, in decimal as well, where products are rounded. The base is even, so
  each round of the loop doubles the power of two that divides the fraction, and rounding keeps it
  (`twoPow_dvd_scaled`). A fraction has less than 2^1074 units: there are no more than 1074 rounds
  (`length_expansion_le_of_dvd`).

  `digits_are_exact` has both, for the text of a number.
-/
import Mathlib.Data.List.DropRight
import Positional.Proofs.Binary64.Rounding
import Positional.Proofs.Numeral.Value

namespace Positional

open Binary64

/-! ## (1) Zeros at the end -/

/-- A digit stays if it is not zero, or a digit behind it stays. -/
theorem rdropWhile_zero_cons (d : Nat) (ds : List Nat) :
    (d :: ds).rdropWhile (· == 0) =
      if d = 0 ∧ ds.rdropWhile (· == 0) = [] then [] else d :: ds.rdropWhile (· == 0) := by
  simp only [List.rdropWhile, List.reverse_cons, List.dropWhile_append, List.reverse_eq_nil_iff]
  by_cases hds : List.dropWhile (· == 0) ds.reverse = []
  · by_cases hd : d = 0
    · simp [hds, hd]
    · simp [hds, hd, List.dropWhile_cons_of_neg]
  · simp [hds]

theorem rdropWhile_zero_replicate (n : Nat) : (List.replicate n 0).rdropWhile (· == 0) = [] := by
  simp [List.rdropWhile_eq_nil_iff]

theorem Radix.number_replicate_zero (r : Radix) (n : Nat) : r.number (List.replicate n 0) = 0 := by
  induction n with
  | zero => rfl
  | succ n ih => rw [List.replicate_succ, number_zero_cons, ih]

namespace Numeral

variable {r : Radix} {p u : Nat}

/-! ## (2) Exact digits -/

/-- The first digits of `q` behind the point. -/
def exactDigits (r : Radix) (p : Nat) (q : ℚ) : List Nat :=
  (List.range p).map fun i => ⌊q * r.base ^ (i + 1)⌋₊ % r.base

/-- All digits of `q` from the place `p` on are zeros. -/
def Ends (r : Radix) (p : Nat) (q : ℚ) : Prop := ∃ m : ℕ, q * r.base ^ p = m

theorem length_exactDigits (r : Radix) (p : Nat) (q : ℚ) : (exactDigits r p q).length = p := by
  rw [exactDigits, List.length_map, List.length_range]

theorem exactDigits_lt (r : Radix) (p : Nat) (q : ℚ) : ∀ d ∈ exactDigits r p q, d < r.base := by
  intro d hd
  obtain ⟨i, -, rfl⟩ := List.mem_map.mp hd
  exact Nat.mod_lt _ r.base_pos

theorem exactDigits_succ (p : Nat) (q : ℚ) :
    exactDigits r (p + 1) q = ⌊q * r.base⌋₊ % r.base :: exactDigits r p (q * r.base) := by
  rw [exactDigits, List.range_succ_eq_map, List.map_cons, List.map_map, zero_add, pow_one, exactDigits]
  congr 2
  funext i
  simp only [Function.comp_apply, pow_succ' _ (i + 1), mul_assoc]

theorem exactDigits_zero (p : Nat) : exactDigits r p 0 = List.replicate p 0 := by
  simp [exactDigits, List.map_const']

/-- The whole part has no digits behind the point. -/
theorem exactDigits_natCast_add (m p : Nat) {q : ℚ} (hq : 0 ≤ q) : exactDigits r p (m + q) = exactDigits r p q := by
  unfold exactDigits
  congr 1
  funext i
  have hsum : (m + q) * (r.base : ℚ) ^ (i + 1) = q * r.base ^ (i + 1) + (m * r.base ^ (i + 1) : ℕ) := by
    push_cast
    ring
  rw [hsum, Nat.floor_add_natCast (by positivity), pow_succ r.base i, ← Nat.mul_assoc, Nat.add_mul_mod_self_right]

/-- The digits denote the number, cut off after the last of them. -/
theorem number_exactDigits (p : Nat) {q : ℚ} (hlt : q < 1) : r.number (exactDigits r p q) = ⌊q * r.base ^ p⌋₊ := by
  induction p with
  | zero => rw [pow_zero, mul_one, Nat.floor_eq_zero.mpr hlt]; rfl
  | succ p ih =>
    have hconcat : exactDigits r (p + 1) q = exactDigits r p q ++ [⌊q * r.base ^ (p + 1)⌋₊ % r.base] := by
      rw [exactDigits, List.range_succ, List.map_append, List.map_singleton, exactDigits]
    have hprefix : ⌊q * r.base ^ p⌋₊ = ⌊q * r.base ^ (p + 1)⌋₊ / r.base := by
      rw [← Nat.floor_div_natCast, pow_succ, ← mul_assoc, mul_div_cancel_right₀ _ r.base_pos_rat.ne']
    rw [hconcat, Radix.number_concat, ih, hprefix, Nat.div_add_mod']

theorem ends_succ (p : Nat) (q : ℚ) : Ends r (p + 1) q ↔ Ends r p (q * r.base) := by
  unfold Ends
  rw [pow_succ', ← mul_assoc]

theorem ends_units (p n : Nat) : Ends r p (n / one) ↔ one ∣ n * r.base ^ p := by
  have hmul : (n : ℚ) / one * r.base ^ p = (n * r.base ^ p : ℕ) / one := by
    push_cast
    ring
  unfold Ends
  rw [hmul]
  constructor
  · intro ⟨m, hm⟩
    rw [div_eq_iff one_pos_rat.ne', ← Nat.cast_mul, Nat.cast_inj] at hm
    exact ⟨m, by rw [hm, Nat.mul_comm]⟩
  · intro ⟨m, hm⟩
    refine ⟨m, ?_⟩
    rw [hm, Nat.cast_mul, mul_div_cancel_left₀ _ one_pos_rat.ne']

/-- Only what is behind the point decides where the digits end. -/
theorem ends_mod (p n : Nat) : Ends r p (n / one) ↔ Ends r p ((n % one : ℕ) / one) := by
  rw [ends_units, ends_units]
  nth_rewrite 1 [← Nat.div_add_mod' n one]
  rw [Nat.add_mul, Nat.mul_right_comm]
  exact Nat.dvd_add_right (Nat.dvd_mul_left _ _)

theorem exactDigits_mod (p n : Nat) : exactDigits r p (n / one) = exactDigits r p ((n % one : ℕ) / one) := by
  rw [units_div_one, exactDigits_natCast_add _ _ (div_one_nonneg _)]

/-! ## (3) The digits of a fraction -/

/-- A fraction that ends with zeros only is zero. -/
theorem units_eq_zero_of_exactDigits (hlt : u < one) (hends : Ends r p (u / one))
    (h : (exactDigits r p (u / one)).rdropWhile (· == 0) = []) : u = 0 := by
  have hzeros : exactDigits r p (u / one) = List.replicate p 0 := by
    rw [List.rdropWhile_eq_nil_iff] at h
    rw [List.eq_replicate_iff]
    exact ⟨length_exactDigits r p _, fun d hd => by simpa using h d hd⟩
  have hnumber := number_exactDigits (r := r) p (div_one_lt_one hlt)
  obtain ⟨m, hm⟩ := hends
  rw [hzeros, Radix.number_replicate_zero, hm, Nat.floor_natCast] at hnumber
  rw [← hnumber, Nat.cast_zero, mul_eq_zero, div_eq_zero_iff, or_iff_left one_pos_rat.ne', Nat.cast_eq_zero] at hm
  exact hm.resolve_right (pow_ne_zero p r.base_pos_rat.ne')

/-- A fraction that is not rounded is written with its exact digits, without zeros at the end if this is their end. -/
theorem expansion_eq (hr : r ≠ .decimal) (p : Nat) (h : Representable u) (hlt : u < one) :
    (Ends r p (u / one) → expansion r p u = (exactDigits r p (u / one)).rdropWhile (· == 0)) ∧
      (¬ Ends r p (u / one) → expansion r p u = exactDigits r p (u / one)) := by
  induction p generalizing u with
  | zero => exact ⟨fun _ => rfl, fun _ => rfl⟩
  | succ p ih =>
    by_cases h0 : 0 < u
    · obtain ⟨hends, hmore⟩ := ih (representable_scaled_mod (r := r) h hlt) (Nat.mod_lt _ Binary64.one_pos)
      have hscaled : (u : ℚ) / one * r.base = scaled r u / one := by
        rw [scaled_eq hr h hlt, Nat.cast_mul, div_mul_eq_mul_div]
      have hdigit : ⌊(scaled r u : ℚ) / one⌋₊ % r.base = scaled r u / one := by
        rw [Nat.floor_div_eq_div]
        exact Nat.mod_eq_of_lt ((Nat.div_lt_iff_lt_mul Binary64.one_pos).mpr (scaled_lt r h hlt))
      rw [expansion_succ p h0, ends_succ, exactDigits_succ, hscaled, hdigit, ends_mod, exactDigits_mod]
      constructor
      · intro he
        rw [rdropWhile_zero_cons, if_neg, hends he]
        intro ⟨hd, hrest⟩
        -- no digit and no rest are left of a product that is not zero
        have hmod := units_eq_zero_of_exactDigits (Nat.mod_lt _ Binary64.one_pos) he hrest
        have hdiv := Nat.div_add_mod' (scaled r u) one
        have hle := le_scaled r h
        rw [hd, hmod] at hdiv
        omega
      · intro he
        rw [hmore he]
    · rw [Nat.eq_zero_of_not_pos h0, expansion_zero, Nat.cast_zero, zero_div, exactDigits_zero, rdropWhile_zero_replicate]
      exact ⟨fun _ => rfl, fun hnot => absurd ⟨0, by simp⟩ hnot⟩

/-! ## (4) The end of the digits -/

/-- A product has one more factor of two than its fraction, rounded or not. -/
theorem twoPow_dvd_scaled {j : Nat} (h : twoPow j ∣ u) : twoPow (j + 1) ∣ scaled r u := by
  have htwo : 2 ∣ r.base := by cases r <;> decide
  rw [scaled, ← Nat.mul_assoc]
  refine twoPow_dvd_roundUnits Binary64.one_pos ?_
  rw [twoPow_succ, Nat.mul_comm]
  exact Nat.mul_dvd_mul h htwo

theorem length_expansion_le_of_dvd {j : Nat} (p : Nat) (h : Representable u) (hlt : u < one) (hdvd : twoPow j ∣ u) :
    (expansion r p u).length ≤ 1074 - j := by
  induction p generalizing u j with
  | zero => exact Nat.zero_le _
  | succ p ih =>
    by_cases h0 : 0 < u
    · have hj : j < 1074 := by
        refine Nat.lt_of_not_le fun hge => ?_
        have hone : one ≤ twoPow j := twoPow_le hge
        have hle := Nat.le_of_dvd h0 hdvd
        omega
      have hone : twoPow (j + 1) ∣ one := twoPow_dvd hj
      have hnext := ih (representable_scaled_mod (r := r) h hlt) (Nat.mod_lt _ Binary64.one_pos)
        ((Nat.dvd_mod_iff hone).mpr (twoPow_dvd_scaled hdvd))
      rw [expansion_succ p h0, List.length_cons]
      omega
    · rw [Nat.eq_zero_of_not_pos h0, expansion_zero]
      exact Nat.zero_le _

/-! ## (5) The text of a number -/

/-- The number that a text denotes, its sign included. -/
def value (r : Radix) (t : Text) : ℚ := (if t.head? = some '-' then -1 else 1) * magnitude r t

theorem head?_spelling (negative : Bool) {whole : Text} (hne : whole ≠ []) (hw : ∀ x ∈ whole, Digit.isDigit x = true)
    (fraction : Text) : (spelling negative whole fraction).head? = some '-' ↔ negative = true := by
  cases negative with
  | true => exact ⟨fun _ => rfl, fun _ => rfl⟩
  | false =>
    obtain ⟨x, whole, rfl⟩ := List.exists_cons_of_ne_nil hne
    have hx : x ≠ '-' := by
      rintro rfl
      exact absurd (hw _ List.mem_cons_self) (by decide)
    simpa [spelling] using hx

theorem inRadix_spelling {s : Bool} {h : Representable u} {t : Text} (ht : (finite s u h).inRadix r p = .ok t) :
    t = spelling (decide ((finite s u h).toRat < 0)) ((digits r (u / one)).map Digit.symbol)
      ((expansion r p (u % one)).map Digit.symbol) := by
  rw [inRadix_finite] at ht
  by_cases h0 : u = 0
  · rw [if_pos h0] at ht
    rw [← Except.ok.inj ht, decide_neg_of_eq h0, h0, Nat.zero_div, Nat.zero_mod, digits_zero, expansion_zero]
    rfl
  · rw [if_neg h0] at ht
    split at ht
    · cases ht
    · rw [← Except.ok.inj ht, text_eq, decide_neg_of_ne h0]

/-- The sign of a text is that of its number. -/
theorem head?_inRadix {x : Binary64} (hx : x.isFinite = true) {t : Text} (ht : x.inRadix r p = .ok t) :
    t.head? = some '-' ↔ x.toRat < 0 := by
  cases x with
  | nan | infinite => cases hx
  | finite s u h =>
    rw [inRadix_spelling ht, head?_spelling _ (by simpa using digits_ne_nil _) (isDigit_symbol_digits r _),
      decide_eq_true_iff]

/-- In a radix that is a power of two, a text denotes what the precision leaves of its number. -/
theorem value_inRadix (hr : r ≠ .decimal) {x : Binary64} (hx : x.isFinite = true) {t : Text}
    (ht : x.inRadix r p = .ok t) : value r t = cutOff r.base p x.toRat := by
  have hfloor : (⌊|x.toRat| * r.base ^ p⌋ : ℚ) = ⌊|x.toRat| * r.base ^ p⌋₊ := by
    rw [natCast_floor_eq_intCast_floor (by positivity)]
  rw [value, magnitude_inRadix hr ht, cutOff, hfloor]
  simp only [head?_inRadix hx ht]
  rcases lt_trichotomy x.toRat 0 with hneg | hzero | hpos
  · rw [if_pos hneg, sign_neg hneg, SignType.coe_neg, SignType.coe_one]
  · rw [hzero]
    simp
  · rw [if_neg hpos.not_gt, sign_pos hpos, SignType.coe_one]

end Numeral

namespace Binary64

open Numeral

/-- In every radix the digits behind the point end after 1074 of them, whatever the precision. In a radix that is a
power of two a number below 2^128 is shown cut off at the precision, in its exact digits: a sign for what is below
zero, the whole part, and the first places, without zeros at the end if nothing follows them. -/
theorem digits_are_exact (r : Radix) (p : Nat) {x : Binary64} (hx : x.isFinite = true) (hlt : |x.toRat| < 2 ^ 128) :
    (fractionExpansion r p (x.abs.sub x.abs.trunc)).length ≤ 1074 ∧
      (r ≠ .decimal → ∃ t fs, x.inRadix r p = .ok t ∧ value r t = cutOff r.base p x.toRat ∧
        t = spelling (decide (x.toRat < 0)) ((digits r ⌊|x.toRat|⌋₊).map Digit.symbol) (fs.map Digit.symbol) ∧
        (Ends r p |x.toRat| → fs = (exactDigits r p |x.toRat|).rdropWhile (· == 0)) ∧
        (¬ Ends r p |x.toRat| → fs = exactDigits r p |x.toRat|)) := by
  obtain ⟨t, ht⟩ := (exists_inRadix_iff r p x).mpr ⟨hx, hlt⟩
  cases x with
  | nan | infinite => cases hx
  | finite s u h =>
    have habs : (abs (finite s u h)).Measures u := ⟨h, rfl⟩
    have hmod : u % one < one := Nat.mod_lt u Binary64.one_pos
    have hrep : Representable (u % one) := representable_mod h representable_one
    constructor
    · rw [fractionExpansion_eq p habs.sub_trunc hmod]
      exact length_expansion_le_of_dvd (j := 0) p hrep hmod (Nat.one_dvd _)
    · intro hr
      have hspelled := inRadix_spelling ht
      rw [← wholePart_eq, abs_toRat, ends_mod, exactDigits_mod]
      exact ⟨t, expansion r p (u % one), ht, value_inRadix hr rfl ht, hspelled, expansion_eq hr p hrep hmod⟩

/-- Minus ten and five eighths: after two binary places more follow, after five nothing has for long. -/
theorem digits_are_exact_ten_and_five_eighths :
    let x : Binary64 := .finite true (85 * twoPow 1071) (representable_scaled (by decide) (by decide))
    x.isFinite = true ∧ |x.toRat| < 2 ^ 128 ∧ Radix.binary ≠ .decimal ∧
      (¬ Ends .binary 2 |x.toRat| ∧ x.inRadix .binary 2 = .ok ['-', '1', '0', '1', '0', '.', '1', '0'] ∧
        value .binary ['-', '1', '0', '1', '0', '.', '1', '0'] = -21 / 2) ∧
      (Ends .binary 5 |x.toRat| ∧ x.inRadix .binary 5 = .ok ['-', '1', '0', '1', '0', '.', '1', '0', '1']) ∧
      (fractionExpansion .decimal 2000 (x.abs.sub x.abs.trunc)).length ≤ 1074 := by
  intro x
  have hx : x.toRat = -85 / 8 := by
    rw [toRat_finite, if_pos rfl, scaled_div_one 85 (j := 3) rfl]
    norm_num
  have habs : |x.toRat| = 85 / 8 := by
    rw [hx]
    norm_num
  have hlt : |x.toRat| < 2 ^ 128 := by
    rw [habs]
    norm_num
  have hneg : decide (x.toRat < 0) = true := by
    rw [decide_eq_true_iff, hx]
    norm_num
  have hdigits : digits .binary ⌊|x.toRat|⌋₊ = [1, 0, 1, 0] := by
    have hfloor : ⌊(85 / 8 : ℚ)⌋₊ = 10 := by norm_num
    rw [habs, hfloor, digits_eq (by decide)]
    rfl
  have hmore : ¬ Ends .binary 2 |x.toRat| := by
    rintro ⟨m, hm⟩
    rw [habs, Radix.base] at hm
    have hm2 : (85 : ℚ) = (2 * m : ℕ) := by
      push_cast
      linarith
    have : 85 = 2 * m := by exact_mod_cast hm2
    omega
  have hends : Ends .binary 5 |x.toRat| := by
    refine ⟨340, ?_⟩
    rw [habs, Radix.base]
    norm_num
  have htwo : exactDigits .binary 2 |x.toRat| = [1, 0] := by
    rw [habs]
    norm_num [exactDigits, List.range_succ, Radix.base]
  have hfive : exactDigits .binary 5 |x.toRat| = [1, 0, 1, 0, 0] := by
    rw [habs]
    norm_num [exactDigits, List.range_succ, Radix.base]
  obtain ⟨-, h2⟩ := digits_are_exact .binary 2 (x := x) rfl hlt
  obtain ⟨-, h5⟩ := digits_are_exact .binary 5 (x := x) rfl hlt
  obtain ⟨t, fs, ht, hvalue, hspelled, -, hfs⟩ := h2 (by decide)
  obtain ⟨t', fs', ht', -, hspelled', hfs', -⟩ := h5 (by decide)
  rw [hfs hmore, htwo, hneg, hdigits] at hspelled
  rw [hfs' hends, hfive, hneg, hdigits] at hspelled'
  have hcut : cutOff 2 2 (-85 / 8) = -21 / 2 := by
    have hfloor : ⌊|(-85 / 8 : ℚ)| * (2 : ℕ) ^ 2⌋ = 42 := by norm_num
    have hsign : SignType.sign (-85 / 8 : ℚ) = -1 := sign_neg (by norm_num)
    rw [cutOff, hfloor, hsign]
    norm_num
  rw [hx, Radix.base, hcut, hspelled] at hvalue
  rw [hspelled] at ht
  rw [hspelled'] at ht'
  exact ⟨rfl, hlt, by decide, ⟨hmore, ht, hvalue⟩, ⟨hends, ht'⟩, (digits_are_exact .decimal 2000 (x := x) rfl hlt).1⟩

end Binary64

end Positional
