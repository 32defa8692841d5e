/-
  Positional.Numeral.Label — numerals that show their radix.

  A labelled numeral stands in parentheses, in upper case, and the base follows in subscript
  digits: `(FF)₁₆`.
-/
import Positional.Radix
import Positional.Text.UpperCase

namespace Positional.Numeral

def subscriptDigit (c : Char) : Char := Char.ofNat ('₀'.toNat + (c.toNat - '0'.toNat))

def subscript (n : Nat) : Text := (Text.ofNat n).map subscriptDigit

def labelled (digits : Text) (base : Nat) : Text := '(' :: digits.upperCase ++ ')' :: subscript base

end Positional.Numeral
