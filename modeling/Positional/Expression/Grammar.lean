/-
  Positional.Expression.Grammar — reading an expression from text.

      expression := term (('+' | '-') term)*
      term       := factor (('*' | '/' | '%') factor)*
      factor     := unary '!'? factor*
      unary      := ('+' | '-') unary | atom ('^' factor)?
      atom       := number | '(' expression ')' | constant | function factor

  Blanks may stand before every symbol and every operand, with one exception: the factors at
  the end of a factor are multiplied with it, and each must start right after the last.
  The argument of a function and an exponent are whole factors, those products included, so
  `sin 2pi` is the sine of 2π and `2^3x` has the exponent `3x`.

  At most 512 factors and unaries are open at once. The functions for these two recurse on
  the number that may still be opened. Chains of operators and factors repeat a reader, each
  time over at least one character, so the `size` of the whole text is rounds enough.

  Reading is total. Where the text departs from the grammar the expression gets a fault and
  the rest of the text is skipped, so nothing after the first fault is read.
-/
import Positional.Expression.Literal
import Positional.Text.Alphabetic

namespace Positional.Expression

/-- A part of the grammar: the expression at a cursor and the place after it. -/
abbrev Reader := Cursor → Expression × Cursor

def breakOff (error : SyntaxError) (c : Cursor) : Expression × Cursor := (.fault error, c.toEnd)

/-- Extends an expression while `extend?` finds something to extend it with. -/
def extendWhile (extend? : Expression → Cursor → Option (Expression × Cursor)) :
    Nat → Expression → Cursor → Expression × Cursor
  | 0, e, c => (e, c)
  | n + 1, e, c =>
    match extend? e c with
    | none => (e, c)
    | some (e, c) => extendWhile extend? n e c

/-! ## (1) Chains of operators -/

def additive : List Operator := [.add, .subtract]

def multiplicative : List Operator := [.multiply, .divide, .remainder]

def eatOperator? (ops : List Operator) (c : Cursor) : Option (Operator × Cursor) :=
  c.eatAny? fun x => ops.find? (·.symbol = x)

/-- An operand to the right of `left`, if an operator follows. -/
def link? (ops : List Operator) (operand : Reader) (left : Expression) (c : Cursor) : Option (Expression × Cursor) :=
  (eatOperator? ops c).map fun (op, c) =>
    let (right, c) := operand c
    (.binary op left right, c)

/-- Operands with operators between them, grouped from the left. -/
def chain (size : Nat) (ops : List Operator) (operand : Reader) : Reader := fun c =>
  let (first, c) := operand c
  extendWhile (link? ops operand) size first c

def expression (size : Nat) (factor : Reader) : Reader :=
  chain size additive (chain size multiplicative factor)

/-! ## (2) Atoms -/

/-- Reads on after an opening parenthesis at `opened`. -/
def enclosed (size : Nat) (factor : Reader) (opened : Nat) : Reader := fun c =>
  let (inner, c) := expression size factor c
  match c.eat? ')' with
  | some c => (inner, c)
  | none =>
    let c := c.skipBlanks
    (.faultAfter inner (if c.rest.isEmpty then .unbalancedParenthesis opened else c.unexpected), c.toEnd)

def application (factor : Reader) (f : Function) : Reader := fun c =>
  let (argument, c) := factor c
  (.call f argument, c)

def named (factor : Reader) : Reader := fun c =>
  let (name, after) := c.takeRun isAlphabetic
  match Identifier.ofText? name with
  | some (.constant k) => (.constant k c.position, after)
  | some (.function f) => application factor f after
  | none => breakOff (.unknownFunction name) after

def atom (size : Nat) (factor : Reader) : Reader := fun c =>
  let c := c.skipBlanks
  match c.rest with
  | [] => breakOff c.unexpected c
  | x :: _ =>
    if x == '(' then enclosed size factor c.position (c.advance 1)
    else if isHexadecimal c.rest then readHexadecimal c
    else if x.isDigit || x == '.' then readDecimal c
    else if x == '√' then application factor .squareRoot (c.advance 1)
    else if isAlphabetic x then named factor c
    else breakOff c.unexpected c

/-! ## (3) Unaries and factors -/

/-- A factor that starts with this character may stand right after another. -/
def startsFactor (x : Char) : Bool := x.isDigit || x == '.' || x == '(' || x == '√' || isAlphabetic x

/-- A factor that stands right after `left`. -/
def adjoin? (factor : Reader) (left : Expression) (c : Cursor) : Option (Expression × Cursor) :=
  if c.next?.any startsFactor then
    let (right, c) := factor c
    some (.binary .multiply left right, c)
  else none

/-- The factors that stand right after a factor. -/
def products (size : Nat) (factor : Reader) (first : Expression) : Reader := extendWhile (adjoin? factor) size first

/-- An operand with the `!` after it, which only a language with the factorial has. -/
def postfixed (factorial : Bool) (operand : Expression) (c : Cursor) : Expression × Cursor :=
  match if factorial then c.eat? '!' else none with
  | some c => (.factorial operand, c)
  | none => (operand, c)

mutual

def unary (factorial : Bool) (size : Nat) : Nat → Reader
  | 0 => fun c => breakOff (.nestedTooDeeply c.position) c
  | depth + 1 => fun c =>
    match c.eat? '+' with
    | some c => unary factorial size depth c
    | none =>
      match c.eat? '-' with
      | some c =>
        let (operand, c) := unary factorial size depth c
        (.negation operand, c)
      | none =>
        let (base, c) := atom size (factor factorial size depth) c
        match c.eat? '^' with
        | some c =>
          let (exponent, c) := factor factorial size depth c
          (.binary .power base exponent, c)
        | none => (base, c)

def factor (factorial : Bool) (size : Nat) : Nat → Reader
  | 0 => fun c => breakOff (.nestedTooDeeply c.position) c
  | depth + 1 => fun c =>
    let (first, c) := unary factorial size depth c
    let (first, c) := postfixed factorial first c
    products size (factor factorial size depth) first c

end

/-! ## (4) Whole texts -/

def depthLimit : Nat := 512

/-- The expression that a whole text spells. -/
def read (factorial : Bool) (t : Text) : Expression :=
  let c := (Cursor.start t).skipBlanks
  if c.rest.isEmpty then .fault .empty
  else
    let (e, c) := expression t.length (factor factorial t.length depthLimit) c
    let c := c.skipBlanks
    if c.rest.isEmpty then e else .faultAfter e c.unexpected

end Positional.Expression
