/-
  Positional.Numeral — numbers written out in a radix.

  A numeral is a sign, the digits of the whole part and those of the fraction, the most
  significant first. Writing a finite number whose whole part has at most 128 bits:

  - the whole part is written exactly, without leading zeros, a zero as one digit;
  - the digits of the fraction are the whole parts of repeated products with the base, in
    64-bit arithmetic. Digits are cut off at the precision, never rounded, and end where
    nothing is left;
  - a number of value zero has no sign.

  In text a point stands between the two if there are fraction digits.

  Memory is left out: the precision is any number, and only the digits that are written count. A program that
  sets room aside for `precision` digits before it writes the first of them ends there when it cannot have so
  much, and from a precision of 2^63 on it never can; here such a number has its digits.

  `digits_lt`: the digits of the whole part are digits of the radix.
-/
import Positional.Radix

namespace Positional

structure Numeral where
  negative : Bool
  whole : List Nat
  fraction : List Nat
  deriving DecidableEq, Repr

namespace Numeral

/-- The digits of a natural number. -/
def digits (r : Radix) (n : Nat) : List Nat :=
  if n < r.base then [n] else digits r (n / r.base) ++ [n % r.base]
termination_by n
decreasing_by
  have := r.two_le_base
  exact Nat.div_lt_self (by omega) (by omega)

/-- The first digits of a fraction, `precision` at most. -/
def fractionExpansion (r : Radix) : (precision : Nat) → Binary64 → List Nat
  | 0, _ => []
  | precision + 1, x =>
    if x.isAboveZero then
      let scaled := x.mul (.ofNat r.base)
      scaled.wholePart :: fractionExpansion r precision (scaled.sub scaled.trunc)
    else []

def zero : Numeral := ⟨false, [0], []⟩

def ofNumber (r : Radix) (precision : Nat) (x : Binary64) : Except NumeralError Numeral :=
  if !x.isFinite then .error (.notFinite x)
  else if x.isZero then .ok zero
  else if twoPow 128 ≤ x.wholePart then .error (.outOfRange x)
  else .ok {
    negative := x.isBelowZero
    whole := digits r x.wholePart
    fraction := fractionExpansion r precision (x.abs.sub x.abs.trunc) }

def text (n : Numeral) : Text :=
  let fraction := if n.fraction.isEmpty then [] else '.' :: n.fraction.map Digit.symbol
  (if n.negative then ['-'] else []) ++ n.whole.map Digit.symbol ++ fraction

theorem digits_lt (r : Radix) (n : Nat) : ∀ d ∈ digits r n, d < r.base := by
  fun_induction digits r n with
  | case1 n h => simpa using h
  | case2 n h ih =>
    intro d hd
    rcases List.mem_append.1 hd with hd | hd
    · exact ih d hd
    · rw [List.mem_singleton.1 hd]
      have := r.two_le_base
      exact Nat.mod_lt _ (by omega)

end Numeral

/-- A number written in a radix. -/
def Binary64.inRadix (r : Radix) (precision : Nat) (x : Binary64) : Except NumeralError Text :=
  (Numeral.ofNumber r precision x).map Numeral.text

end Positional
