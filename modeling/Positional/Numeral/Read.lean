/-
  Positional.Numeral.Read — the number that a numeral's text denotes.

  The text is digits with an optional `-` before them and at most one point among them; one
  side of the point may be empty. More points, or no digit and no other character, are
  malformed; otherwise the leftmost character that is no digit of the radix is invalid.

  The value is computed in 64-bit arithmetic: the whole part by repeated multiplication with
  the base, the fraction as the sum of its digits over growing powers of the base. Long digit
  strings may leave the range, whole parts towards infinity and fraction digits towards zero.
-/
import Positional.Numeral

namespace Positional.Numeral

/-- The number of the digits of a whole part. -/
def wholeValue (r : Radix) (digits : List Nat) : Binary64 :=
  digits.foldl (fun x digit => (x.mul (.ofNat r.base)).add (.ofNat digit)) (.zero false)

/-- The sum of fraction digits, the first of them over `weight`. -/
def fractionSum (r : Radix) : List Nat → (weight sum : Binary64) → Binary64
  | [], _, sum => sum
  | digit :: digits, weight, sum =>
    fractionSum r digits (weight.mul (.ofNat r.base)) (sum.add ((Binary64.ofNat digit).div weight))

def fractionValue (r : Radix) (digits : List Nat) : Binary64 :=
  fractionSum r digits (.ofNat r.base) (.zero false)

/-- The two sides of the point, the second empty where there is none. -/
def sides? (unsigned : Text) : Option (Text × Text) :=
  match unsigned.splitOnP (· == '.') with
  | [whole] => if whole.isEmpty then none else some (whole, [])
  | [whole, fraction] => if whole.isEmpty && fraction.isEmpty then none else some (whole, fraction)
  | _ => none

def splitSign : Text → Bool × Text
  | '-' :: unsigned => (true, unsigned)
  | unsigned => (false, unsigned)

def read (r : Radix) (t : Text) : Except NumeralError Binary64 := do
  let (negative, unsigned) := splitSign t
  match sides? unsigned with
  | none => .error (.malformed t)
  | some (whole, fraction) =>
    let whole ← whole.mapM r.readDigit
    let fraction ← fraction.mapM r.readDigit
    let magnitude := (wholeValue r whole).add (fractionValue r fraction)
    return if negative then magnitude.neg else magnitude

end Positional.Numeral
