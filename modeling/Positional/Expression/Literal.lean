/-
  Positional.Expression.Literal — numbers written out in an expression.

  A decimal literal is the longest run of digits and points, in which an `e` or `E` that
  stands before a digit, or before a sign and a digit, belongs to the literal together with
  that sign. Any other `e` is not part of it, so `2e` is twice the constant. The run need not
  be a number: `1.2.3` is one literal, and invalid.

  A hexadecimal literal is `0x` or `0X` and the digits that follow it at once, in either case;
  it must be below 2^64.
-/
import Positional.Digit
import Positional.Expression.Cursor
import Positional.Expression.Tree

namespace Positional

/-- Breaks off here: the next character has no place, or there is none. -/
def Cursor.unexpected (c : Cursor) : SyntaxError :=
  match c.next? with
  | some x => .unexpectedCharacter x c.position
  | none => .unexpectedEnd

namespace Expression

def isExponentMarker (x : Char) : Bool := x == 'e' || x == 'E'

/-- `0x` and `0X` begin a hexadecimal literal, whatever comes after them. -/
def isHexadecimal : Text → Bool
  | '0' :: marker :: _ => marker == 'x' || marker == 'X'
  | _ => false

def startsWithDigit (t : Text) : Bool := t.head?.any Char.isDigit

/-- The decimal literal at the front of a text. -/
def decimalLexeme : Text → Text
  | [] => []
  | x :: t =>
    if x.isDigit || x == '.' then x :: decimalLexeme t
    else if isExponentMarker x then
      match t with
      | [] => []
      | y :: u =>
        if y.isDigit then x :: decimalLexeme (y :: u)
        else if (y == '+' || y == '-') && startsWithDigit u then x :: y :: decimalLexeme u
        else []
    else []

def readDecimal (c : Cursor) : Expression × Cursor :=
  let lexeme := decimalLexeme c.rest
  let after := c.advance lexeme.length
  match Binary64.ofText? lexeme with
  | some x => (.number x, after)
  | none => (.fault (.invalidNumber lexeme), after.toEnd)

/-- The number that a run of hexadecimal digits denotes. -/
def hexadecimalValue (t : Text) : Nat := t.foldl (fun n x => n * 16 + (Digit.value? x).getD 0) 0

/-- Reads on after `0x`. -/
def readHexadecimal (c : Cursor) : Expression × Cursor :=
  let (digits, after) := (c.advance 2).takeRun Digit.isDigit
  if digits.isEmpty then (.fault after.unexpected, after.toEnd)
  else if hexadecimalValue digits < twoPow 64 then (.number (.ofNat (hexadecimalValue digits)), after)
  else (.fault (.invalidNumber ("0x".toList ++ digits)), after.toEnd)

end Expression

end Positional
