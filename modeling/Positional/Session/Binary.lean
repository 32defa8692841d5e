/-
  Positional.Session.Binary — the dialogue that converts decimal expressions to binary.

  Every line is an expression. One that converts is stored with its binary digits; one that
  does not is answered with the reason and leaves no trace.
-/
import Positional.Conversion
import Positional.Session

namespace Positional.BinarySession

/-- The stored rows, oldest first: an expression and its binary digits. -/
abbrev State := List (List Text)

def start : State := []

def answer (lib : Elementary) (precision : Nat) (rows : State) (t : Text) (chance : Chance) : State × Text :=
  match Conversion.inBinary ⟨lib, chance⟩ precision t with
  | .ok digits =>
    (rows ++ [[t, digits]],
      ">> Conversion stored. Enter next number or type 'STOP' to display results.\n\n".toList)
  | .error e => (rows, invalidInput e.message)

def dialogue (lib : Elementary) (precision : Nat) : Dialogue State where
  prompt _ := "Decimal: ".toList
  answer := answer lib precision
  conclusion := conversionTable ["Input".toList, "Output".toList]

def run (lib : Elementary) (precision : Nat) (lines : List Line) : Transcript :=
  (dialogue lib precision).run start lines

end Positional.BinarySession
