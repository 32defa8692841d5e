/-
  Positional.Binary64.Decimal — numbers as decimal text.

  Reading. `ofDecimal` takes `significand · 10^exponent` to the nearest number. Text is read
  as digits with an optional point among them and an optional exponent
  (`1`, `.5`, `2.`, `1.5e-3`); a significand needs a digit and so does an exponent.

  Writing. Among the decimals that read back as the number, `shortest` takes the one with the
  fewest digits, of several the nearest to the number, of two equally near the larger. It looks
  for the coarsest power of ten with a multiple among the reals that round to the number: they
  reach half a step up and half a step down (the step below a power of two is the smaller one),
  ends included when the significand is even. `text` writes that decimal without an exponent,
  and without a point when it is whole.
-/
import Positional.Binary64
import Positional.Text

namespace Positional

/-- The number `significand · 10^exponent`. -/
structure Decimal where
  significand : Nat
  exponent : Int
  deriving DecidableEq, Repr

namespace Decimal

/-- Positional digits: zeros up to the point, or a point among the digits. -/
def text (d : Decimal) : Text :=
  let digits := Text.ofNat d.significand
  if 0 ≤ d.exponent then digits ++ List.replicate d.exponent.toNat '0'
  else
    let places := (-d.exponent).toNat
    let padded := List.replicate (places + 1 - digits.length) '0' ++ digits
    padded.take (padded.length - places) ++ '.' :: padded.drop (padded.length - places)

end Decimal

namespace Binary64

/-! ## (1) Reading -/

/-- The number nearest to a decimal. Far outside the range of numbers the answer is known
before the power of ten is computed. -/
def ofDecimal (d : Decimal) : Binary64 :=
  let top := d.exponent + (Text.ofNat d.significand).length
  if d.significand = 0 ∨ top < -330 then zero false
  else if 310 < top then infinite false
  else if 0 ≤ d.exponent then ofRatio (d.significand * Nat.pow 10 d.exponent.toNat) 1
  else ofRatio d.significand (Nat.pow 10 (-d.exponent).toNat)

/-- What may follow the significand: nothing, or a marker and a whole number. -/
def readExponent? : Text → Option Int
  | [] => some 0
  | marker :: rest =>
    if marker != 'e' && marker != 'E' then none
    else
      let (negative, digits) := match rest with
        | '-' :: digits => (true, digits)
        | '+' :: digits => (false, digits)
        | digits => (false, digits)
      if Text.isDigits digits then
        some (if negative then -(Text.decimalValue digits : Int) else Text.decimalValue digits)
      else none

def readDecimal? (t : Text) : Option Decimal :=
  let whole := t.takeWhile Char.isDigit
  let (fraction, rest) := match t.dropWhile Char.isDigit with
    | '.' :: rest => (rest.takeWhile Char.isDigit, rest.dropWhile Char.isDigit)
    | rest => ([], rest)
  if whole.isEmpty && fraction.isEmpty then none
  else (readExponent? rest).map fun exponent =>
    ⟨Text.decimalValue (whole ++ fraction), exponent - fraction.length⟩

def ofText? (t : Text) : Option Binary64 := (readDecimal? t).map ofDecimal

/-! ## (2) Writing -/

/-- Whether `point / scale` lies among the reals that round to `units`, both in halves of a unit. -/
def roundsTo (units point scale : Nat) : Bool :=
  let low := (2 * units - step (units - 1)) * scale
  let high := (2 * units + step units) * scale
  if units / step units % 2 = 0 then low ≤ point && point ≤ high else low < point && point < high

/-- The multiple of `10^exponent` that rounds to `units` and is nearest to it, if there is one. -/
def onDecimalGrid? (units : Nat) (exponent : Int) : Option Decimal :=
  let scale := if 0 ≤ exponent then 1 else Nat.pow 10 (-exponent).toNat
  let spacing := 2 * one * (if 0 ≤ exponent then Nat.pow 10 exponent.toNat else 1)
  let target := 2 * units * scale
  let below := target / spacing
  let fits n := roundsTo units (n * spacing) scale
  let above := below + 1
  if fits above && (!fits below || above * spacing - target ≤ target - below * spacing) then
    some ⟨above, exponent⟩
  else if fits below then some ⟨below, exponent⟩
  else none

/-- The shortest decimal of a magnitude. The least grid holds every magnitude itself. -/
def shortest (units : Nat) : Decimal :=
  ((List.range 1383).findSome? fun (n : Nat) => onDecimalGrid? units (308 - n)).getD ⟨units * Nat.pow 5 1074, -1074⟩

/-- A number as it stands in a message. -/
def text : Binary64 → Text
  | nan => "NaN".toList
  | infinite negative => if negative then "-inf".toList else "inf".toList
  | finite negative units _ =>
    let digits := if units = 0 then ['0'] else (shortest units).text
    if negative then '-' :: digits else digits

end Binary64

end Positional
