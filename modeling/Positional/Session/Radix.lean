/-
  Positional.Session.Radix — the dialogue that converts between radices.

  Lines come in pairs: the base of the origin radix, then a number in it. A base that is no
  number or not supported is asked for again. After the number the next base is asked for,
  whether the number converted or not. A base without a number leaves no trace.
-/
import Positional.Conversion
import Positional.Session

namespace Positional.RadixSession

structure State where
  /-- The stored rows, oldest first: a number in its origin radix and in the three others. -/
  rows : List (List Text)
  /-- The radix of the number that is asked for, if one is. -/
  origin : Option Radix
  deriving DecidableEq

def start : State := ⟨[], none⟩

def prompt (state : State) : Text :=
  match state.origin with
  | none => "Enter origin base (2, 8, 10, 16): ".toList
  | some origin => "Enter number in base ".toList ++ Text.ofNat origin.base ++ ": ".toList

def answerBase (state : State) (t : Text) : State × Text :=
  match Text.natBelow? (twoPow 32) t with
  | none => (state, ">> Invalid input. Enter 2, 8, 10, or 16.\n\n".toList)
  | some base =>
    match Radix.ofBase base with
    | .ok origin => ({ state with origin := some origin }, [])
    | .error _ => (state, ">> Invalid base. Only bases 2, 8, 10, and 16 are allowed.\n\n".toList)

def answerNumber (s : Setting) (precision : Nat) (rows : List (List Text)) (origin : Radix) (t : Text) :
    State × Text :=
  match Conversion.inAllRadices s origin precision t with
  | .ok row =>
    (⟨rows ++ [row], none⟩,
      ">> Conversion stored. Enter next conversion or type 'STOP' to display results.\n\n".toList)
  | .error e => (⟨rows, none⟩, invalidInput e.message)

def answer (lib : Elementary) (precision : Nat) (state : State) (t : Text) (chance : Chance) : State × Text :=
  match state.origin with
  | none => answerBase state t
  | some origin => answerNumber ⟨lib, chance⟩ precision state.rows origin t

def headers : List Text := ["Input".toList, "Output 1".toList, "Output 2".toList, "Output 3".toList]

def dialogue (lib : Elementary) (precision : Nat) : Dialogue State where
  prompt := prompt
  answer := answer lib precision
  conclusion state := conversionTable headers state.rows

def run (lib : Elementary) (precision : Nat) (lines : List Line) : Transcript :=
  (dialogue lib precision).run start lines

end Positional.RadixSession
