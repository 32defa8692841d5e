/-
  Positional.Proofs.Numeral.Precision — a smaller precision only cuts digits off.

  The digits of a fraction come one by one, and the precision only says when to stop. So with `p` places
  the digits are the first `p` of those with more places (`fractionExpansion_take`), and nothing else
  of the numeral depends on the precision (`ofNumber_take`). This holds of decimal as well, where the
  digits are not those of the number.

  In text the point goes with the last digit behind it (`precision_only_cuts`).
-/
import Positional.Proofs.Numeral.Value

namespace Positional

open Binary64

namespace Numeral

variable {r : Radix} {p q : Nat}

/-! ## (1) Digits -/

/-- A shorter run of the loop is the beginning of a longer one. -/
theorem fractionExpansion_take (hpq : p ≤ q) (x : Binary64) :
    fractionExpansion r p x = (fractionExpansion r q x).take p := by
  induction p generalizing q x with
  | zero => rfl
  | succ p ih =>
    cases q with
    | zero => exact absurd hpq (Nat.not_succ_le_zero p)
    | succ q =>
      simp only [fractionExpansion]
      split
      · rw [List.take_succ_cons, ih (Nat.le_of_succ_le_succ hpq)]
      · rw [List.take_nil]

/-- At most `p` digits behind the point are left. -/
def cutTo (p : Nat) (n : Numeral) : Numeral := { n with fraction := n.fraction.take p }

/-- Whether a number is written, and why not, does not depend on the precision, nor do the sign and the whole part. -/
theorem ofNumber_take (hpq : p ≤ q) (x : Binary64) : ofNumber r p x = (ofNumber r q x).map (cutTo p) := by
  unfold ofNumber
  split
  · rfl
  · split
    · rw [Except.map, cutTo, zero, List.take_nil]
    · split
      · rfl
      · rw [Except.map, cutTo, ← fractionExpansion_take hpq]

/-! ## (2) The point -/

/-- The sign and the whole part. -/
def beforePoint (t : Text) : Text := t.takeWhile (· != '.')

def behindPoint (t : Text) : Text := (t.dropWhile (· != '.')).tail

section

variable {n : Numeral} (h : ∀ d ∈ n.whole ++ n.fraction, d < r.base)

include h

/-- The one point of a numeral stands before the digits of its fraction. -/
theorem sides_text : beforePoint n.text = (if n.negative then ['-'] else []) ++ n.whole.map Digit.symbol ∧
    behindPoint n.text = n.fraction.map Digit.symbol ∧ ('.' ∈ n.text ↔ n.fraction ≠ []) := by
  have hpoint := point_notMem_signed n.negative (point_notMem_whole h)
  simp only [beforePoint, behindPoint, text]
  generalize (if n.negative then ['-'] else []) ++ n.whole.map Digit.symbol = front at hpoint
  have hfront : ∀ x ∈ front, (x != '.') = true := fun x hx => bne_iff_ne.mpr fun he => hpoint (he ▸ hx)
  rw [List.takeWhile_append_of_pos hfront, List.dropWhile_append_of_pos hfront]
  cases n.fraction with
  | nil => simp [hpoint]
  | cons d fs => simp

end

end Numeral

namespace Binary64

open Numeral

/-- A number below 2^128 is written with fewer places by leaving digits out at the end, and the point with the last of
them. The sign, the whole part and the digits that are left are the same. -/
theorem precision_only_cuts (r : Radix) {p q : Nat} (hpq : p ≤ q) {x : Binary64} (hx : x.isFinite = true)
    (hlt : |x.toRat| < 2 ^ 128) :
    ∃ t u, x.inRadix r p = .ok t ∧ x.inRadix r q = .ok u ∧ beforePoint t = beforePoint u ∧
      behindPoint t = (behindPoint u).take (min p (behindPoint u).length) ∧ ('.' ∈ t ↔ behindPoint t ≠ []) := by
  obtain ⟨u, hu⟩ := (exists_inRadix_iff r q x).mpr ⟨hx, hlt⟩
  obtain ⟨n, hn, rfl⟩ := inRadix_eq_ok.mp hu
  have hcut : ofNumber r p x = .ok (cutTo p n) := by rw [ofNumber_take hpq, hn, Except.map]
  have ht : x.inRadix r p = .ok (cutTo p n).text := inRadix_eq_ok.mpr ⟨_, hcut, rfl⟩
  obtain ⟨hbefore, hbehind, -⟩ := sides_text (digits_of_ofNumber hn).1
  obtain ⟨hbefore', hbehind', hpoint'⟩ := sides_text (digits_of_ofNumber hcut).1
  refine ⟨_, _, ht, hu, ?_, ?_, ?_⟩
  · rw [hbefore, hbefore', cutTo]
  · rw [hbehind, hbehind', cutTo, List.take_eq_take_min, List.map_take, List.length_map]
  · rw [hpoint', hbehind', ne_eq, ne_eq, List.map_eq_nil_iff]

/-- Just below seven tenths, three places do not round up. -/
theorem precision_only_cuts_seven_tenths :
    let x : Binary64 := .finite true (6305039478318693 * twoPow 1021) (representable_scaled (by decide) (by decide))
    let t : Text := "-0.699".toList
    let u : Text := "-0.69999999999999982236".toList
    3 ≤ 20 ∧ x.isFinite = true ∧ |x.toRat| < 2 ^ 128 ∧ x.inRadix .decimal 3 = .ok t ∧ x.inRadix .decimal 20 = .ok u ∧
      beforePoint t = beforePoint u ∧ behindPoint t = (behindPoint u).take (min 3 (behindPoint u).length) := by
  intro x t u
  have hlt : |x.toRat| < 2 ^ 128 := by
    rw [abs_toRat, scaled_div_one 6305039478318693 (j := 53) rfl]
    norm_num
  have hu : x.inRadix .decimal 20 = .ok u := by
    have hfraction : expansion .decimal 20 (6305039478318693 * twoPow 1021) =
        [6, 9, 9, 9, 9, 9, 9, 9, 9, 9, 9, 9, 9, 9, 9, 8, 2, 2, 3, 6] := by decide +kernel
    rw [inRadix_below_one _ _ _ _ (by decide +kernel) (by decide +kernel), hfraction]
    decide +kernel
  have ht : x.inRadix .decimal 3 = .ok t := by
    have hfraction : expansion .decimal 3 (6305039478318693 * twoPow 1021) = [6, 9, 9] := by decide +kernel
    rw [inRadix_below_one _ _ _ _ (by decide +kernel) (by decide +kernel), hfraction]
    decide +kernel
  obtain ⟨t', u', ht', hu', hbefore, hbehind, -⟩ := precision_only_cuts .decimal (by decide : 3 ≤ 20) (x := x) rfl hlt
  obtain rfl : t = t' := Except.ok.inj (ht.symm.trans ht')
  obtain rfl : u = u' := Except.ok.inj (hu.symm.trans hu')
  exact ⟨by decide, rfl, hlt, ht, hu, hbefore, hbehind⟩

end Binary64

end Positional
