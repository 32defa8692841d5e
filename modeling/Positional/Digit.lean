/-
  Positional.Digit — the symbols of digits.

  The digits below sixteen are written 0 to 9 and A to F, and read in either case. No
  character outside ASCII is a digit. `value?_symbol`: a digit is read as it is written.
-/

namespace Positional.Digit

/-- The symbol of a digit below 16. -/
def symbol (digit : Nat) : Char :=
  if digit < 10 then Char.ofNat ('0'.toNat + digit) else Char.ofNat ('A'.toNat + (digit - 10))

def value? (x : Char) : Option Nat :=
  if '0' ≤ x && x ≤ '9' then some (x.toNat - '0'.toNat)
  else if 'a' ≤ x && x ≤ 'f' then some (x.toNat - 'a'.toNat + 10)
  else if 'A' ≤ x && x ≤ 'F' then some (x.toNat - 'A'.toNat + 10)
  else none

def isDigit (x : Char) : Bool := (value? x).isSome

theorem value?_symbol {digit : Nat} (h : digit < 16) : value? (symbol digit) = some digit := by
  have : ∀ d : Fin 16, value? (symbol d) = some d.val := by decide
  exact this ⟨digit, h⟩

end Positional.Digit
