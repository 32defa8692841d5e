/-
  Positional.Expression.Operation — the operations of expressions, with their domains.

  An operation answers a finite number or says why it has none.

  - Sums, differences, products, quotients and powers that leave the range overflow.
  - Division and remainder by zero, and zero to a negative power, are divisions by zero; a
    power that is not a number is undefined at its base.
  - A function is undefined at an argument where its value is not finite.
  - The factorial of `x ≥ 0` multiplies the numbers up to the whole part of `x` in signed
    64-bit words, which wrap around. From 66 on the product has sixty-four factors of two
    and stays zero, so the product stops there.

  The elementary functions and the power are a parameter (`Elementary`): no property of them
  is taken for granted. Only the absolute value is computed here, since it is exact.
-/
import Positional.Expression.Error
import Positional.Expression.Name

namespace Positional

/-- The functions and the power on numbers, as some mathematical library computes them. -/
structure Elementary where
  function : Function → Binary64 → Binary64
  power : Binary64 → Binary64 → Binary64

/-- A number that an operation may answer. -/
def checked (x : Binary64) : Except DomainError Binary64 :=
  if x.isFinite then .ok x else .error .overflow

/-! ## (1) Operators -/

inductive Operator where
  | add
  | subtract
  | multiply
  | divide
  | remainder
  | power
  deriving DecidableEq, Repr

def Operator.symbol : Operator → Char
  | add => '+'
  | subtract => '-'
  | multiply => '*'
  | divide => '/'
  | remainder => '%'
  | power => '^'

def raise (lib : Elementary) (base exponent : Binary64) : Except DomainError Binary64 :=
  if base.isZero && exponent.isBelowZero then .error .divisionByZero
  else
    let result := lib.power base exponent
    if result.isNan then .error (.undefined [Operator.power.symbol] base) else checked result

def Operator.apply (lib : Elementary) (op : Operator) (x y : Binary64) : Except DomainError Binary64 :=
  match op with
  | add => checked (x.add y)
  | subtract => checked (x.sub y)
  | multiply => checked (x.mul y)
  | divide => if y.isZero then .error .divisionByZero else checked (x.div y)
  | remainder => if y.isZero then .error .moduloByZero else .ok (x.rem y)
  | power => raise lib x y

/-! ## (2) Functions -/

def Function.value (lib : Elementary) (f : Function) (x : Binary64) : Binary64 :=
  match f with
  | absoluteValue => x.abs
  | f => lib.function f x

def Function.apply (lib : Elementary) (f : Function) (x : Binary64) : Except DomainError Binary64 :=
  let y := f.value lib x
  if y.isFinite then .ok y else .error (.undefined f.name x)

/-! ## (3) The factorial -/

/-- The products of `product` with `next`, with `next + 1` and so on, one for each of `count` factors. A product
of zero is the last. -/
def products : (count next : Nat) → Int64 → List Int64
  | 0, _, _ => []
  | count + 1, next, product =>
    let product := product * Int64.ofNat next
    product :: if product = 0 then [] else products count (next + 1) product

/-- The product of `product` with `count` factors from `next` up. -/
def multiplyUp (count next : Nat) (product : Int64) : Int64 := (products count next product).getLastD product

/-- The whole part of `x ≥ 0`, as a signed 64-bit word holds it. -/
def wordPart : Binary64 → Nat
  | .nan => 0
  | .infinite _ => twoPow 63 - 1
  | x => min x.wholePart (twoPow 63 - 1)

def factorial (x : Binary64) : Except DomainError Binary64 :=
  if x.isBelowZero then .error (.negativeFactorial x)
  else .ok (.ofInt (multiplyUp (wordPart x - 1) 2 1).toInt)

end Positional
