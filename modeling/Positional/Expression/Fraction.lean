/-
  Positional.Expression.Fraction — the fraction forms of expressions.

  Text that the grammar refuses may still be written as a fraction. Its form is the first of
  these that fits:

  - a mixed number: a whole number, blanks, and digits with a slash between them
    (`2 1/3`, `-2 1/3`);
  - an enclosed text, which begins with `(` and ends with `)`;
  - a quotient of two texts at its only slash;
  - crowded: there is more than one slash;
  - none of them.

  A mixed number is the whole number plus the quotient, each step rounded, and the sign comes
  last. It may be infinite or not a number when its digits are many.

  `length_lt_of_enclosed`, `length_lt_of_quotient`: the parts are shorter than the text.
-/
import Positional.Expression.Tree

namespace Positional

structure MixedNumber where
  negative : Bool
  whole : Text
  numerator : Text
  denominator : Text
  deriving DecidableEq

namespace MixedNumber

/-- Whether a word has a minus sign at the front, and the word without it. -/
def cutSign : Text → Bool × Text
  | '-' :: word => (true, word)
  | word => (false, word)

def ofText? (t : Text) : Option MixedNumber :=
  match t.words with
  | [first, second] =>
    let (negative, whole) := cutSign first
    match second.cutAt? '/' with
    | some (numerator, denominator) =>
      if Text.isDigits whole && Text.isDigits numerator && Text.isDigits denominator then
        some ⟨negative, whole, numerator, denominator⟩
      else none
    | none => none
  | _ => none

/-- The number nearest to a run of digits. -/
def ofDigits (t : Text) : Binary64 := .ofDecimal ⟨t.decimalValue, 0⟩

def value (m : MixedNumber) : Except DomainError Binary64 :=
  let denominator := ofDigits m.denominator
  if denominator.isZero then .error .zeroDenominator
  else
    let magnitude := (ofDigits m.whole).add ((ofDigits m.numerator).div denominator)
    .ok (if m.negative then magnitude.neg else magnitude)

end MixedNumber

inductive FractionForm where
  | mixed (m : MixedNumber)
  | enclosed (inner : Text)
  | quotient (numerator denominator : Text)
  | crowded
  | none
  deriving DecidableEq

namespace FractionForm

/-- What stands between an opening parenthesis at the start and a closing one at the end. -/
def inner? : Text → Option Text
  | '(' :: t => if t.getLast? = some ')' then some t.dropLast else .none
  | _ => .none

def ofText (t : Text) : FractionForm :=
  match MixedNumber.ofText? t with
  | some m => mixed m
  | .none =>
    match inner? t with
    | some inner => enclosed inner
    | .none =>
      match t.cutAt? '/' with
      | some (numerator, denominator) =>
        if denominator.contains '/' then crowded else quotient numerator denominator
      | .none => none

theorem length_lt_of_enclosed {t inner : Text} (h : ofText t = enclosed inner) :
    inner.length < t.length := by
  unfold ofText at h
  split at h
  · cases h
  · split at h
    · rename_i u hu
      cases h
      unfold inner? at hu
      split at hu
      · split at hu
        · cases hu
          simp only [List.length_dropLast, List.length_cons]
          omega
        · cases hu
      · cases hu
    · split at h
      · split at h <;> cases h
      · cases h

theorem length_lt_of_quotient {t numerator denominator : Text}
    (h : ofText t = quotient numerator denominator) :
    numerator.length < t.length ∧ denominator.length < t.length := by
  unfold ofText at h
  split at h
  · cases h
  · split at h
    · cases h
    · split at h
      · rename_i heq
        obtain ⟨rfl, _⟩ := Text.cutAt?_eq_some heq
        split at h
        · cases h
        · cases h
          simp only [List.length_append, List.length_cons]
          omega
      · cases h

end FractionForm

end Positional
