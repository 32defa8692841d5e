/-
  Positional.Expression.Tree — expressions and their values.

  An expression is what has been read of a text. Reading may break off: then the place holds
  a `fault`, or the last complete part is kept with the error that follows it (`faultAfter`).
  Values are computed from left to right and the first failure is the answer, so a domain
  error to the left of a fault comes before it, and one to the right never shows.

  A number that is read must be finite.
-/
import Positional.Expression.Operation
import Positional.Expression.Chance
import Positional.Binary64.Bits

namespace Positional

inductive Expression where
  | number (x : Binary64)
  | constant (c : Constant) (position : Nat)
  | call (f : Function) (argument : Expression)
  | negation (operand : Expression)
  | factorial (operand : Expression)
  | binary (op : Operator) (left right : Expression)
  | fault (error : SyntaxError)
  | faultAfter (complete : Expression) (error : SyntaxError)
  deriving DecidableEq

/-- What the value of an expression depends on besides its text. -/
structure Setting where
  elementary : Elementary
  chance : Chance

/-- The setting in which a part of a text is read once more. -/
def Setting.beyond (s : Setting) (length part : Nat) : Setting := ⟨s.elementary, s.chance.beyond length part⟩

def Constant.value (chance : Chance) (c : Constant) (position : Nat) : Binary64 :=
  match c with
  | pi => .ofBits 0x400921fb54442d18
  | euler => .ofBits 0x4005bf0a8b145769
  | random => .ofRatio (chance position) (twoPow 53)

namespace Expression

def value (s : Setting) : Expression → Except ExpressionError Binary64
  | number x => (checked x).mapError .domain
  | constant c position => .ok (c.value s.chance position)
  | call f argument => do
    let x ← argument.value s
    (f.apply s.elementary x).mapError .domain
  | negation operand => do
    let x ← operand.value s
    return x.neg
  | factorial operand => do
    let x ← operand.value s
    (Positional.factorial x).mapError .domain
  | binary op left right => do
    let x ← left.value s
    let y ← right.value s
    (op.apply s.elementary x y).mapError .domain
  | fault error => .error (.grammar error)
  | faultAfter complete error => do
    let _ ← complete.value s
    .error (.grammar error)

/-- Nothing broke off. -/
def isComplete : Expression → Bool
  | number _ | constant _ _ => true
  | call _ e | negation e | factorial e => e.isComplete
  | binary _ left right => left.isComplete && right.isComplete
  | fault _ | faultAfter _ _ => false

end Expression

end Positional
