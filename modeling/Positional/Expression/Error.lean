/-
  Positional.Expression.Error — why an expression has no value.

  Either its text does not follow the grammar (`SyntaxError`), or an operation in it is
  applied where it has no value (`DomainError`). Positions count the characters before the
  place, in the text that the grammar was given.
-/
import Positional.Binary64.Decimal

namespace Positional

inductive SyntaxError where
  | empty
  | unexpectedCharacter (character : Char) (position : Nat)
  | unexpectedEnd
  /-- A parenthesis is still open at the end; the position is its own. -/
  | unbalancedParenthesis (position : Nat)
  | unknownFunction (name : Text)
  | invalidNumber (text : Text)
  | tooManySlashes
  | nestedTooDeeply (position : Nat)
  deriving DecidableEq

inductive DomainError where
  | negativeFactorial (operand : Binary64)
  | divisionByZero
  | moduloByZero
  /-- The denominator of a fraction is zero, in the forms outside the grammar. -/
  | zeroDenominator
  | undefined (function : Text) (argument : Binary64)
  | overflow
  deriving DecidableEq

inductive ExpressionError where
  | grammar (error : SyntaxError)
  | domain (error : DomainError)
  deriving DecidableEq

def SyntaxError.message : SyntaxError → Text
  | empty => "empty expression".toList
  | unexpectedCharacter c p =>
    "unexpected character '".toList ++ c :: "' at position ".toList ++ Text.ofNat p
  | unexpectedEnd => "unexpected end of expression".toList
  | unbalancedParenthesis p => "unbalanced parenthesis opened at position ".toList ++ Text.ofNat p
  | unknownFunction name => "unknown function: ".toList ++ name
  | invalidNumber text => "invalid number: ".toList ++ text
  | tooManySlashes => "too many '/' characters".toList
  | nestedTooDeeply p => "expression is nested too deeply at position ".toList ++ Text.ofNat p

def DomainError.message : DomainError → Text
  | negativeFactorial x => "factorial of negative number ".toList ++ x.text ++ " is not defined".toList
  | divisionByZero => "division by zero".toList
  | moduloByZero => "modulo by zero".toList
  | zeroDenominator => "denominator cannot be zero".toList
  | undefined function x => function ++ " is not defined for ".toList ++ x.text
  | overflow => "result is too large to represent".toList

def ExpressionError.message : ExpressionError → Text
  | grammar e => e.message
  | domain e => e.message

end Positional
