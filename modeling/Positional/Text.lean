/-
  Positional.Text — lines of text and the cuts made in them.

  A text is the list of its characters, so a position in it counts characters, never
  bytes. Blank means White_Space throughout (`isBlank`).

  - `trim` takes the blanks off both ends.
  - `words` are the maximal runs without blanks.
  - `cutAt? x` cuts at the first `x`; the `x` itself is in neither half.
  - `joined sep` writes texts in a row with `sep` between them.

  `length_trim_le` and `cutAt?_eq_some` bound what is left, for the functions that recurse
  on a part of their input.
-/
import Positional.Text.Blank

namespace Positional

abbrev Text := List Char

namespace Text

def trimStart (t : Text) : Text := t.dropWhile isBlank

def trim (t : Text) : Text := (trimStart (trimStart t).reverse).reverse

def words (t : Text) : List Text := (t.splitOnP isBlank).filter (!·.isEmpty)

def cutAt? (x : Char) (t : Text) : Option (Text × Text) :=
  match t.dropWhile (· != x) with
  | [] => none
  | _ :: after => some (t.takeWhile (· != x), after)

/-- A run of ASCII digits with at least one of them. -/
def isDigits (t : Text) : Bool := !t.isEmpty && t.all Char.isDigit

def joined (separator : Text) (ts : List Text) : Text := separator.intercalate ts

/-- The decimal numeral of `n`. -/
def ofNat (n : Nat) : Text := Nat.toDigits 10 n

/-- The number that a run of decimal digits denotes. -/
def decimalValue (t : Text) : Nat := t.foldl (fun n c => n * 10 + (c.toNat - '0'.toNat)) 0

/-- Reads an unsigned whole number below `bound`: digits, a single `+` allowed before them. -/
def natBelow? (bound : Nat) (t : Text) : Option Nat :=
  let digits := match t with
    | '+' :: digits => digits
    | digits => digits
  if isDigits digits && decimalValue digits < bound then some (decimalValue digits) else none

/-! ## What is left of a text -/

theorem length_trim_le (t : Text) : (trim t).length ≤ t.length := by
  have h (u : Text) : (trimStart u).length ≤ u.length := (List.dropWhile_sublist _).length_le
  have := h (trimStart t).reverse
  have := h t
  simp only [trim, List.length_reverse] at *
  omega

theorem cutAt?_eq_some {x : Char} {t before after : Text} (h : cutAt? x t = some (before, after)) :
    t = before ++ x :: after ∧ x ∉ before := by
  unfold cutAt? at h
  split at h
  · cases h
  · rename_i y rest hd
    cases h
    have hy : ¬ (y != x) = true := by
      have := List.head?_dropWhile_not (· != x) t
      rw [hd] at this
      simpa using this
    have hx : y = x := by simpa using hy
    subst hx
    constructor
    · rw [← hd, List.takeWhile_append_dropWhile]
    · intro hm
      have := List.all_takeWhile (p := (· != y)) (l := t)
      rw [List.all_eq_true] at this
      simpa using this y hm

end Text

end Positional
