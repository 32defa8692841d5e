/-
  Positional.Radix — the positional systems and their digits.

  There are four radices: 2, 8, 10 and 16. A radix is chosen by its base, or by text that
  spells it: an unsigned whole number below 2^32, with blanks around it and a `+` before it
  allowed. Text that is not such a number is malformed; another number is unsupported.

  The digits of a radix are those below its base. `readDigit_symbol`: a digit of a radix is
  read as it is written.
-/
import Positional.Digit
import Positional.Numeral.Error

namespace Positional

inductive Radix where
  | binary
  | octal
  | decimal
  | hexadecimal
  deriving DecidableEq, Repr

namespace Radix

def base : Radix → Nat
  | binary => 2
  | octal => 8
  | decimal => 10
  | hexadecimal => 16

theorem two_le_base (r : Radix) : 2 ≤ r.base := by cases r <;> decide

theorem base_le (r : Radix) : r.base ≤ 16 := by cases r <;> decide

/-- All radices, by ascending base. -/
def all : List Radix := [binary, octal, decimal, hexadecimal]

def others (r : Radix) : List Radix := all.filter (· != r)

def ofBase (base : Nat) : Except NumeralError Radix :=
  match base with
  | 2 => .ok binary
  | 8 => .ok octal
  | 10 => .ok decimal
  | 16 => .ok hexadecimal
  | base => .error (.unsupportedBase base)

theorem ofBase_eq_ok_iff {r : Radix} {n : Nat} : ofBase n = .ok r ↔ n = r.base := by
  constructor
  · intro h
    unfold ofBase at h
    split at h <;> cases h <;> rfl
  · rintro rfl
    cases r <;> rfl

def ofText (t : Text) : Except NumeralError Radix :=
  match Text.natBelow? (twoPow 32) t.trim with
  | some base => ofBase base
  | none => .error (.malformed t)

theorem ofText_eq_ok_iff {r : Radix} {t : Text} : ofText t = .ok r ↔ Text.natBelow? (twoPow 32) t.trim = some r.base := by
  unfold ofText
  cases Text.natBelow? (twoPow 32) t.trim with
  | none => exact ⟨fun h => (by cases h), fun h => (by cases h)⟩
  | some n => rw [Option.some.injEq, ← ofBase_eq_ok_iff]

/-! ## Digits -/

def writeDigit? (r : Radix) (digit : Nat) : Option Char :=
  if digit < r.base then some (Digit.symbol digit) else none

def readDigit (r : Radix) (x : Char) : Except NumeralError Nat :=
  match Digit.value? x with
  | some digit => if digit < r.base then .ok digit else .error (.invalidDigit x r.base)
  | none => .error (.invalidDigit x r.base)

theorem readDigit_symbol {r : Radix} {digit : Nat} (h : digit < r.base) :
    r.readDigit (Digit.symbol digit) = .ok digit := by
  rw [readDigit, Digit.value?_symbol (Nat.lt_of_lt_of_le h r.base_le)]
  exact if_pos h

end Radix

end Positional
