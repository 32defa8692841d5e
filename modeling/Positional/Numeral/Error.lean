/-
  Positional.Numeral.Error — why a number cannot be written or read in a radix.
-/
import Positional.Binary64.Decimal

namespace Positional

inductive NumeralError where
  | invalidDigit (digit : Char) (base : Nat)
  | unsupportedBase (base : Nat)
  | malformed (text : Text)
  | notFinite (x : Binary64)
  /-- The whole part has more than 128 bits. -/
  | outOfRange (x : Binary64)
  deriving DecidableEq

def NumeralError.message : NumeralError → Text
  | invalidDigit digit base =>
    "invalid digit '".toList ++ digit :: "' for base ".toList ++ Text.ofNat base
  | unsupportedBase base =>
    "unsupported base ".toList ++ Text.ofNat base ++ ", only 2, 8, 10 and 16 are allowed".toList
  | malformed text => "malformed number: '".toList ++ text ++ "'".toList
  | notFinite x => x.text ++ " is not a finite number".toList
  | outOfRange x => x.text ++ " is too large to convert".toList

end Positional
