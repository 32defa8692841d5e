/-
  Positional.Proofs.Numeral.Written — what a number looks like in a radix.

  The digits of a fraction are computed in 64-bit arithmetic. In unit counts one step multiplies with
  the base and rounds (`scaled`); the whole part of the product is the digit, and the remainder
  the next fraction (`fractionExpansion_eq`). Only decimal products are rounded, and never up to
  ten: a fraction on the grid is at least 2^-53 away from one (`scaled_lt`). So every digit is a
  digit of the radix, and a product is not zero before the fraction is, so that digits that
  end early do not end with a zero.

  In the other radices nothing is rounded, and the digits are those of the fraction itself, cut
  off at the precision (`number_expansion`).

  A finite number below 2^128 is written in one form (`Canonical`, `written_canonically`).
-/
import Positional.Proofs.Binary64.Rational
import Positional.Proofs.Numeral.Digits

namespace Positional

open Binary64

namespace Radix

/-- The radices that are powers of two, which need no rounding. -/
theorem ne_decimal_iff {r : Radix} : r ≠ .decimal ↔ ∃ k, r.base = twoPow k := by
  cases r with
  | binary => exact ⟨fun _ => ⟨1, rfl⟩, fun _ => by decide⟩
  | octal => exact ⟨fun _ => ⟨3, rfl⟩, fun _ => by decide⟩
  | hexadecimal => exact ⟨fun _ => ⟨4, rfl⟩, fun _ => by decide⟩
  | decimal =>
    refine ⟨fun h => absurd rfl h, fun ⟨k, h⟩ => ?_⟩
    have small : ∀ k < 4, base decimal ≠ twoPow k := by decide
    rcases Nat.lt_or_ge k 4 with hk | hk
    · exact absurd h (small k hk)
    · exact absurd (h ▸ twoPow_le hk) (by decide)

end Radix

namespace Numeral

variable {r : Radix} {u : Nat}

/-! ## (1) One digit -/

/-- The product of a fraction with the base, in units. -/
def scaled (r : Radix) (units : Nat) : Nat := roundUnits (units * (r.base * one)) one

/-- The last number below one. -/
theorem le_of_lt_one (h : Representable u) (hlt : u < one) : u ≤ one - twoPow 1021 := by
  by_cases hlog : u.log2 = 1073
  · obtain ⟨q, hq⟩ := step_dvd h
    rw [step, hlog] at hq
    have hone : one = twoPow 53 * twoPow 1021 := twoPow_add 53 1021
    have hqlt : q < twoPow 53 := by
      refine Nat.lt_of_mul_lt_mul_right (a := twoPow 1021) ?_
      rw [← hone, Nat.mul_comm, ← hq]
      exact hlt
    have hle : (q + 1) * twoPow 1021 ≤ one := by
      rw [hone]
      exact Nat.mul_le_mul_right _ hqlt
    rw [Nat.add_mul, Nat.one_mul, Nat.mul_comm q, ← hq] at hle
    omega
  · have hlt' : u < twoPow 1073 := by
      by_cases h0 : u = 0
      · rw [h0]
        exact twoPow_pos _
      · have hlog' : u.log2 < 1074 := (log2_lt_iff h0).mpr hlt
        exact (log2_lt_iff h0).mp (by omega)
    have hgap : twoPow 1073 ≤ one - twoPow 1021 := by decide +kernel
    omega

/-- Rounding keeps the order of products. -/
theorem scaled_mono (r : Radix) {v : Nat} (h : u ≤ v) : scaled r u ≤ scaled r v :=
  roundUnits_mono Binary64.one_pos Binary64.one_pos (Nat.mul_le_mul_right _ (Nat.mul_le_mul_right _ h))

theorem scaled_lt (r : Radix) (h : Representable u) (hlt : u < one) : scaled r u < r.base * one := by
  have hmax : scaled r (one - twoPow 1021) < r.base * one := by
    cases r <;> decide +kernel
  exact Nat.lt_of_le_of_lt (scaled_mono r (le_of_lt_one h hlt)) hmax

theorem le_scaled (r : Radix) (h : Representable u) : u ≤ scaled r u := by
  have hself : roundUnits (u * one) one = u := roundUnits_of_representable h Binary64.one_pos
  rw [← hself]
  nth_rewrite 2 [hself]
  refine roundUnits_mono Binary64.one_pos Binary64.one_pos (Nat.mul_le_mul_right _ (Nat.mul_le_mul_left u ?_))
  exact Nat.le_mul_of_pos_left one r.base_pos

theorem base_mul_one_lt (r : Radix) : r.base * one < ceiling :=
  Nat.lt_of_le_of_lt (Nat.mul_le_mul_right one r.base_le) (by decide +kernel)

theorem representable_base (r : Radix) : Representable (r.base * one) :=
  representable_ofNat (Nat.le_trans r.base_le (by decide))

/-- Without rounding. -/
theorem scaled_eq (hr : r ≠ .decimal) (h : Representable u) (hlt : u < one) : scaled r u = u * r.base := by
  obtain ⟨k, hk⟩ := Radix.ne_decimal_iff.mp hr
  have hc : u * r.base < ceiling := by
    refine Nat.lt_trans ?_ (base_mul_one_lt r)
    rw [Nat.mul_comm]
    exact Nat.mul_lt_mul_of_pos_left hlt r.base_pos
  have hrep : Representable (u * r.base) := by
    rw [hk] at hc ⊢
    exact representable_scale h hc
  rw [scaled, ← Nat.mul_assoc, roundUnits_of_representable hrep Binary64.one_pos]

theorem measures_scaled {x : Binary64} (hx : x.Measures u) (hlt : u < one) :
    (x.mul (.ofNat r.base)).Measures (scaled r u) := by
  have h : Representable u := by
    obtain ⟨h, _⟩ := hx
    exact h
  exact hx.mul_rounded (measures_ofNat (representable_base r)) (Nat.lt_trans (scaled_lt r h hlt) (base_mul_one_lt r))

/-! ## (2) The digits of a fraction -/

/-- The digits of a fraction of `units`. -/
def expansion (r : Radix) : (precision : Nat) → (units : Nat) → List Nat
  | 0, _ => []
  | p + 1, u => if 0 < u then scaled r u / one :: expansion r p (scaled r u % one) else []

theorem expansion_zero (p : Nat) : expansion r p 0 = [] := by
  cases p <;> rfl

theorem expansion_succ (p : Nat) (h : 0 < u) :
    expansion r (p + 1) u = scaled r u / one :: expansion r p (scaled r u % one) := if_pos h

theorem fractionExpansion_eq {x : Binary64} (p : Nat) (hx : x.Measures u) (hlt : u < one) :
    fractionExpansion r p x = expansion r p u := by
  induction p generalizing x u with
  | zero => rfl
  | succ p ih =>
    have hs := measures_scaled (r := r) hx hlt
    simp only [fractionExpansion, expansion, hx.isAboveZero, decide_eq_true_eq, hs.wholePart,
      ih hs.sub_trunc (Nat.mod_lt _ Binary64.one_pos)]

theorem representable_product (h : Representable u) (hlt : u < one) : Representable (scaled r u) :=
  representable_roundUnits (Nat.lt_trans (scaled_lt r h hlt) (base_mul_one_lt r))

/-- The remainder of a step is a fraction again. -/
theorem representable_scaled_mod (h : Representable u) (hlt : u < one) : Representable (scaled r u % one) :=
  representable_mod (representable_product h hlt) representable_one

theorem expansion_lt (p : Nat) (h : Representable u) (hlt : u < one) : ∀ d ∈ expansion r p u, d < r.base := by
  induction p generalizing u with
  | zero => exact fun d hd => nomatch hd
  | succ p ih =>
    intro d hd
    by_cases h0 : 0 < u
    · rw [expansion_succ p h0] at hd
      rcases List.mem_cons.mp hd with rfl | hd
      · exact (Nat.div_lt_iff_lt_mul Binary64.one_pos).mpr (scaled_lt r h hlt)
      · exact ih (representable_scaled_mod h hlt) (Nat.mod_lt _ Binary64.one_pos) d hd
    · rw [Nat.eq_zero_of_not_pos h0, expansion_zero] at hd
      cases hd

theorem length_expansion_le (p u : Nat) : (expansion r p u).length ≤ p := by
  induction p generalizing u with
  | zero => exact Nat.le_refl 0
  | succ p ih =>
    by_cases h0 : 0 < u
    · rw [expansion_succ p h0, List.length_cons]
      exact Nat.succ_le_succ (ih _)
    · rw [Nat.eq_zero_of_not_pos h0, expansion_zero]
      exact Nat.zero_le _

/-- Digits that end early end with a digit that is not zero. -/
theorem getLast?_expansion {p : Nat} (h : Representable u) (hlt : u < one) (hp : (expansion r p u).length < p) :
    (expansion r p u).getLast? ≠ some 0 := by
  induction p generalizing u with
  | zero => exact absurd hp (Nat.not_lt_zero _)
  | succ p ih =>
    by_cases h0 : 0 < u
    · rw [expansion_succ p h0] at hp ⊢
      have hp' : (expansion r p (scaled r u % one)).length < p := by simpa using hp
      have hrest := ih (representable_scaled_mod h hlt) (Nat.mod_lt _ Binary64.one_pos) hp'
      by_cases hmod : scaled r u % one = 0
      · -- the fraction ends here: its digit is the whole product, which is not below the fraction
        rw [hmod, expansion_zero, List.getLast?_singleton]
        intro hd
        have hdiv := Nat.div_add_mod (scaled r u) one
        rw [Option.some.inj hd, hmod] at hdiv
        have := le_scaled r h
        omega
      · obtain ⟨p, rfl⟩ := Nat.exists_eq_succ_of_ne_zero (Nat.ne_of_gt (Nat.lt_of_le_of_lt (Nat.zero_le _) hp'))
        rw [expansion_succ p (Nat.pos_of_ne_zero hmod)] at hrest ⊢
        rwa [List.getLast?_cons_cons]
    · rw [Nat.eq_zero_of_not_pos h0, expansion_zero]
      exact fun hd => nomatch hd

/-! ## (3) Digits without rounding -/

/-- Digits of a fraction that is not rounded denote it, cut off after the last of them; there are
fewer than allowed only if nothing is cut off. -/
theorem number_expansion_length (hr : r ≠ .decimal) (p : Nat) (h : Representable u) (hlt : u < one) :
    let n := (expansion r p u).length
    r.number (expansion r p u) = u * r.base ^ n / one ∧ (n < p → one ∣ u * r.base ^ n) := by
  induction p generalizing u with
  | zero => exact ⟨by simp [expansion, Radix.number_nil, Nat.div_eq_of_lt hlt], fun hp => absurd hp (Nat.not_lt_zero _)⟩
  | succ p ih =>
    by_cases h0 : 0 < u
    · have hs := scaled_eq hr h hlt
      obtain ⟨hn, hd⟩ := ih (u := scaled r u % one) (representable_scaled_mod h hlt) (Nat.mod_lt _ Binary64.one_pos)
      rw [expansion_succ p h0]
      simp only [List.length_cons, Radix.number_cons, hn]
      generalize hl : (expansion r p (scaled r u % one)).length = l at hn hd ⊢
      have hsplit : u * r.base ^ (l + 1) = scaled r u % one * r.base ^ l + scaled r u / one * r.base ^ l * one := by
        have hdiv := Nat.div_add_mod' (scaled r u) one
        calc u * r.base ^ (l + 1) = scaled r u * r.base ^ l := by rw [hs, pow_succ']; ring
          _ = (scaled r u / one * one + scaled r u % one) * r.base ^ l := by rw [hdiv]
          _ = _ := by ring
      rw [hsplit, Nat.add_mul_div_right _ _ Binary64.one_pos]
      refine ⟨Nat.add_comm _ _, fun hp => ?_⟩
      exact Nat.dvd_add (hd (Nat.lt_of_succ_lt_succ hp)) (Nat.dvd_mul_left _ _)
    · rw [Nat.eq_zero_of_not_pos h0, expansion_zero]
      simp [Radix.number_nil]

/-- The digits of a fraction that is not rounded, with zeros up to the precision. -/
theorem number_expansion (hr : r ≠ .decimal) (p : Nat) (h : Representable u) (hlt : u < one) :
    r.number (expansion r p u) * r.base ^ (p - (expansion r p u).length) = u * r.base ^ p / one := by
  obtain ⟨hn, hd⟩ := number_expansion_length hr p h hlt
  have hle := length_expansion_le (r := r) p u
  generalize (expansion r p u).length = n at hn hd hle ⊢
  obtain ⟨m, rfl⟩ := Nat.exists_eq_add_of_le hle
  rw [hn, Nat.add_sub_cancel_left, pow_add, ← Nat.mul_assoc]
  rcases Nat.eq_zero_or_pos m with rfl | hm
  · simp
  · exact (Nat.mul_div_right_comm (hd (by omega)) _).symm

/-! ## (4) The numeral of a number -/

theorem ofNumber_finite (p : Nat) (s : Bool) (h : Representable u) :
    ofNumber r p (.finite s u h) =
      if u = 0 then .ok zero
      else if twoPow 128 ≤ u / one then .error (.outOfRange (.finite s u h))
      else .ok ⟨s, digits r (u / one), expansion r p (u % one)⟩ := by
  have habs : (abs (.finite s u h)).Measures u := ⟨h, rfl⟩
  have hfraction := fractionExpansion_eq (r := r) p habs.sub_trunc (Nat.mod_lt _ Binary64.one_pos)
  unfold ofNumber
  by_cases h0 : u = 0
  · simp [isFinite, isZero, h0]
  · have hne : (u != 0) = true := by simpa using h0
    simp [isFinite, isZero, h0, hne, wholePart, isBelowZero, hfraction]

theorem digits_expansion_lt (p : Nat) (h : Representable u) :
    ∀ d ∈ digits r (u / one) ++ expansion r p (u % one), d < r.base := by
  intro d hd
  rcases List.mem_append.mp hd with hd | hd
  · exact digits_lt r _ d hd
  · exact expansion_lt p (representable_mod h representable_one) (Nat.mod_lt _ Binary64.one_pos) d hd

/-- The form of numerals: `q` with at most `p` digits behind the point is written with the digits of `n`. -/
structure Canonical (r : Radix) (p : Nat) (q : ℚ) (n : Numeral) (t : Text) : Prop where
  spelled : t = (if q < 0 then ['-'] else []) ++ n.whole.map Digit.symbol ++
    if n.fraction = [] then [] else '.' :: n.fraction.map Digit.symbol
  digits_lt : ∀ d ∈ n.whole ++ n.fraction, d < r.base
  whole_ne_nil : n.whole ≠ []
  number_whole : r.number n.whole = ⌊|q|⌋₊
  no_leading_zero : n.whole = [0] ∨ n.whole.head? ≠ some 0
  places_le : n.fraction.length ≤ p
  no_trailing_zero : n.fraction.length < p → n.fraction.getLast? ≠ some 0

theorem canonical_of_finite (p : Nat) {s : Bool} {h : Representable u} (h0 : u ≠ 0) :
    let n : Numeral := ⟨s, digits r (u / one), expansion r p (u % one)⟩
    Canonical r p (toRat (.finite s u h)) n n.text := by
  intro n
  refine ⟨?_, digits_expansion_lt p h, digits_ne_nil _, ?_, digits_eq_zero_or _, length_expansion_le _ _,
    getLast?_expansion (representable_mod h representable_one) (Nat.mod_lt _ Binary64.one_pos)⟩
  · have hs : s = true ↔ toRat (.finite s u h) < 0 := by
      rw [← isBelowZero_iff _ rfl]
      simp [isBelowZero, h0]
    simp only [text, List.isEmpty_iff, ← hs]
    rfl
  · rw [number_digits, ← wholePart_eq]
    rfl

end Numeral

/-! ## (5) The text of a number -/

open Numeral

namespace Binary64

variable (r : Radix) (p : Nat)

theorem inRadix_not_finite {x : Binary64} (h : x.isFinite = false) : x.inRadix r p = .error (.notFinite x) := by
  rw [inRadix, ofNumber, h]
  rfl

theorem inRadix_finite (s : Bool) {u : Nat} (h : Representable u) :
    (finite s u h).inRadix r p =
      if u = 0 then .ok ['0']
      else if twoPow 128 ≤ u / one then .error (.outOfRange (.finite s u h))
      else .ok (Numeral.text ⟨s, digits r (u / one), expansion r p (u % one)⟩) := by
  rw [inRadix, ofNumber_finite]
  split
  · rfl
  · split <;> rfl

/-- Below one all digits are behind the point. -/
theorem inRadix_below_one (s : Bool) {u : Nat} (h : Representable u) (h0 : u ≠ 0) (hlt : u < one) :
    (finite s u h).inRadix r p = .ok (Numeral.text ⟨s, [0], expansion r p u⟩) := by
  rw [inRadix_finite, if_neg h0, Nat.div_eq_of_lt hlt, if_neg (by decide), digits_zero, Nat.mod_eq_of_lt hlt]

theorem inRadix_zero {x : Binary64} (h : x.isZero = true) : x.inRadix r p = .ok ['0'] := by
  cases x with
  | nan | infinite => cases h
  | finite s u hu =>
    have hu0 : u = 0 := by simpa [isZero] using h
    rw [inRadix_finite, if_pos hu0]

theorem exists_inRadix_iff (x : Binary64) :
    (∃ t, x.inRadix r p = .ok t) ↔ x.isFinite = true ∧ |x.toRat| < 2 ^ 128 := by
  cases hx : x.isFinite with
  | false => simp [inRadix_not_finite r p hx]
  | true =>
    cases x with
    | nan | infinite => cases hx
    | finite s u h =>
      rw [inRadix_finite, ← wholePart_lt_iff]
      by_cases h0 : u = 0
      · simp [h0, wholePart, twoPow_pos]
      · rcases Nat.lt_or_ge (u / one) (twoPow 128) with hw | hw
        · simp [h0, hw, Nat.not_le.mpr hw, wholePart]
        · simp [h0, hw, Nat.not_lt.mpr hw, wholePart]

/-- What a number looks like that is written and is not zero. -/
theorem canonical_of_inRadix {x : Binary64} {t : Text} (h0 : x.isZero = false) (h : x.inRadix r p = .ok t) :
    ∃ n, Canonical r p x.toRat n t := by
  obtain ⟨hx, -⟩ := (exists_inRadix_iff r p x).mp ⟨t, h⟩
  cases x with
  | nan | infinite => cases hx
  | finite s u hu =>
    have hu0 : u ≠ 0 := by simpa [isZero] using h0
    rw [inRadix_finite, if_neg hu0] at h
    split at h
    · cases h
    · cases h
      exact ⟨_, canonical_of_finite p hu0⟩

theorem inRadix_neg {x : Binary64} {t : Text} (hpos : 0 < x.toRat) (h : x.inRadix r p = .ok t) :
    x.neg.inRadix r p = .ok ('-' :: t) := by
  obtain ⟨hx, -⟩ := (exists_inRadix_iff r p x).mp ⟨t, h⟩
  cases x with
  | nan | infinite => cases hx
  | finite s u hu =>
    have hs : s = false := by
      cases s with
      | false => rfl
      | true =>
        have hle : (0 : ℚ) ≤ u / one := by positivity
        rw [toRat_finite, if_pos rfl, neg_one_mul, neg_pos] at hpos
        exact absurd hpos (not_lt.mpr hle)
    subst hs
    have hu0 : u ≠ 0 := by
      rw [toRat_finite, if_neg Bool.false_ne_true, one_mul] at hpos
      exact units_pos_iff.mp hpos
    rw [inRadix_finite, if_neg hu0] at h
    rw [neg, inRadix_finite, if_neg hu0]
    split at h
    · cases h
    · rename_i hw
      cases h
      rw [if_neg hw]
      rfl

/-- Exactly the finite numbers below 2^128 can be written. A number that is not zero has the canonical
form, and the opposite of a positive one the same text behind a sign; both zeros are one digit. -/
theorem written_canonically (x : Binary64) :
    ((∃ t, x.inRadix r p = .ok t) ↔ x.isFinite = true ∧ |x.toRat| < 2 ^ 128) ∧
      (x.isZero = true → x.inRadix r p = .ok ['0']) ∧
      ∀ t, x.inRadix r p = .ok t →
        (x.isZero = false → ∃ n, Canonical r p x.toRat n t) ∧
          (0 < x.toRat → x.neg.inRadix r p = .ok ('-' :: t)) :=
  ⟨exists_inRadix_iff r p x, inRadix_zero r p,
    fun _ ht => ⟨fun h0 => canonical_of_inRadix r p h0 ht, fun hpos => inRadix_neg r p hpos ht⟩⟩

/-- The last number below one has nines only in decimal, and the negative zero no sign. -/
theorem written_canonically_below_one :
    let x : Binary64 := .finite false ((twoPow 53 - 1) * twoPow 1021) (representable_scaled (by decide) (by decide))
    let t : Text := ['0', '.', '9', '9', '9']
    x.inRadix .decimal 3 = .ok t ∧ (∃ n, Canonical .decimal 3 x.toRat n t) ∧
      x.neg.inRadix .decimal 3 = .ok ('-' :: t) ∧ (zero true).inRadix .decimal 3 = .ok ['0'] := by
  intro x t
  have hx : x.inRadix .decimal 3 = .ok t := by
    have hfraction : expansion .decimal 3 ((twoPow 53 - 1) * twoPow 1021) = [9, 9, 9] := by decide +kernel
    rw [inRadix_below_one _ _ _ _ (by decide +kernel) (by decide +kernel), hfraction]
    rfl
  have hpos : 0 < x.toRat := by
    rw [toRat_finite, if_neg Bool.false_ne_true, one_mul, units_pos_iff]
    decide +kernel
  obtain ⟨-, -, hform⟩ := written_canonically .decimal 3 x
  obtain ⟨-, hzero, -⟩ := written_canonically .decimal 3 (zero true)
  exact ⟨hx, (hform t hx).1 (by decide +kernel), (hform t hx).2 hpos, hzero rfl⟩

end Binary64

end Positional
