/-
  Positional.Expression — the value of a text.

  Blanks at both ends are dropped, the rest is read by the grammar (`Expression.read`) and
  evaluated. Where the fraction forms are part of the language, a text that the grammar
  refuses for any reason but its depth is taken in its form (`FractionForm`), the parts of
  which are texts themselves. A text of no form keeps the grammar's answer, and so does
  one that fails in an operation.

  The parts of a quotient are evaluated from left to right, and the quotient itself is not
  checked for its range.
-/
import Positional.Expression.Grammar
import Positional.Expression.Fraction

namespace Positional

/-- The optional parts of the language of expressions. -/
structure Language where
  /-- `n!` is the factorial of a factor. -/
  factorial : Bool
  /-- Text that the grammar refuses may be in a fraction form. -/
  fractions : Bool
  deriving DecidableEq, Repr

namespace Language

def full : Language := ⟨true, true⟩

/-- What decimal expressions are written in when they are converted to binary. -/
def binaryTool : Language := full

/-- What numbers are written in when they are converted between radices. -/
def radixTool : Language := ⟨true, false⟩

end Language

namespace Expression

/-- The value by the grammar alone. -/
def grammarValue (s : Setting) (language : Language) (t : Text) : Except ExpressionError Binary64 :=
  (read language.factorial t).value s

/-- Whether another form may be tried after this error. -/
def leavesOpen : ExpressionError → Bool
  | .grammar (.nestedTooDeeply _) => false
  | .grammar _ => true
  | .domain _ => false

def evaluate (s : Setting) (language : Language) (t : Text) : Except ExpressionError Binary64 :=
  let trimmed := t.trim
  match grammarValue s language trimmed with
  | .ok x => .ok x
  | .error e =>
    if language.fractions && leavesOpen e then
      match _ : FractionForm.ofText trimmed with
      | .mixed m => m.value.mapError .domain
      | .enclosed inner => evaluate (s.beyond trimmed.length 0) language inner
      | .quotient numerator denominator => do
        let x ← evaluate (s.beyond trimmed.length 0) language numerator
        let y ← evaluate (s.beyond trimmed.length 1) language denominator
        if y.isZero then .error (.domain .zeroDenominator) else .ok (x.div y)
      | .crowded => .error (.grammar .tooManySlashes)
      | .none => .error e
    else .error e
termination_by t.length
decreasing_by
  · exact Nat.lt_of_lt_of_le (FractionForm.length_lt_of_enclosed ‹_›) (Text.length_trim_le t)
  · exact Nat.lt_of_lt_of_le (FractionForm.length_lt_of_quotient ‹_›).1 (Text.length_trim_le t)
  · exact Nat.lt_of_lt_of_le (FractionForm.length_lt_of_quotient ‹_›).2 (Text.length_trim_le t)

end Expression

end Positional
