/-
  Positional.Conversion — from what is typed to what is shown.

  Input for the radix tool is read in its origin radix if it is plain digits there: hexadecimal
  digits, with at most one point and digits on both sides of it. Decimal input and everything
  else is an expression, whatever the origin.

  A row shows a number in all four radices, the origin first and the others by ascending base.
-/
import Positional.Expression
import Positional.Numeral.Read
import Positional.Numeral.Label

namespace Positional

inductive ConversionError where
  | expression (error : ExpressionError)
  | numeral (error : NumeralError)
  deriving DecidableEq

def ConversionError.message : ConversionError → Text
  | expression e => e.message
  | numeral e => e.message

namespace Conversion

def isDigitRun (t : Text) : Bool := !t.isEmpty && t.all Digit.isDigit

def isPlainNumeral (t : Text) : Bool :=
  match t.cutAt? '.' with
  | some (whole, fraction) => isDigitRun whole && isDigitRun fraction
  | none => isDigitRun t

/-- The number that input for the radix tool stands for. -/
def read (s : Setting) (language : Language) (origin : Radix) (t : Text) : Except ConversionError Binary64 :=
  let input := t.trim
  if origin == .decimal || !isPlainNumeral input then (Expression.evaluate s language input).mapError .expression
  else (Numeral.read origin input).mapError .numeral

/-- A number's labelled numerals. -/
def row (origin : Radix) (precision : Nat) (x : Binary64) : Except NumeralError (List Text) :=
  (origin :: origin.others).mapM fun r => do
    let digits ← x.inRadix r precision
    return Numeral.labelled digits r.base

def inBinary (s : Setting) (precision : Nat) (t : Text) : Except ConversionError Text := do
  let x ← (Expression.evaluate s .binaryTool t).mapError .expression
  (x.inRadix .binary precision).mapError .numeral

def inAllRadices (s : Setting) (origin : Radix) (precision : Nat) (t : Text) :
    Except ConversionError (List Text) := do
  let x ← read s .radixTool origin t
  (row origin precision x).mapError .numeral

end Conversion

end Positional
