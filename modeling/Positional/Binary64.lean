/-
  Positional.Binary64 — 64-bit floating-point numbers and their arithmetic.

  A number is not-a-number, an infinity, or a sign with a magnitude on the grid of
  `Binary64.Grid`; a zero has a sign like any other number. Not-a-number is one value.

  - Sums, products and quotients are computed exactly and rounded once, to the nearest
    number, ties to the even one; what rounds to 2^1024 or more is an infinity (`round`).
  - An exact sum of zero is positive unless both summands are negative.
  - Remainders (`rem`, with the dividend's sign), whole parts (`trunc`) and changes of sign
    are exact.
  - Operations without a value (∞ − ∞, 0 · ∞, 0 / 0, ∞ / ∞, a remainder of ∞ or by 0) give
    not-a-number; a non-zero number divided by zero is an infinity.
-/
import Positional.Binary64.Grid

namespace Positional

inductive Binary64 where
  | nan
  | infinite (negative : Bool)
  | finite (negative : Bool) (units : Nat) (representable : Binary64.Representable units)
  deriving DecidableEq

namespace Binary64

/-! ## (1) Making numbers -/

def zero (negative : Bool) : Binary64 := .finite negative 0 representable_zero

/-- The number nearest to `num / den` units, with the given sign. -/
def round (negative : Bool) (num den : Nat) : Binary64 :=
  if h : roundUnits num den < ceiling then .finite negative (roundUnits num den) (representable_roundUnits h)
  else .infinite negative

/-- The number nearest to `num / den`. -/
def ofRatio (num den : Nat) : Binary64 := round false (num * one) den

def ofNat (n : Nat) : Binary64 := ofRatio n 1

def ofInt (n : Int) : Binary64 := round (decide (n < 0)) (n.natAbs * one) 1

instance : Inhabited Binary64 := ⟨zero false⟩

/-! ## (2) Looking at numbers -/

def isFinite : Binary64 → Bool
  | finite _ _ _ => true
  | _ => false

def isNan (x : Binary64) : Bool := x matches nan

/-- Both zeros are zero. -/
def isZero : Binary64 → Bool
  | finite _ units _ => units == 0
  | _ => false

/-- Below zero as a number, which -0 is not. -/
def isBelowZero : Binary64 → Bool
  | nan => false
  | infinite negative => negative
  | finite negative units _ => negative && units != 0

def isAboveZero : Binary64 → Bool
  | nan => false
  | infinite negative => !negative
  | finite negative units _ => !negative && units != 0

/-- The whole part of a finite number's magnitude. -/
def wholePart : Binary64 → Nat
  | finite _ units _ => units / one
  | _ => 0

/-! ## (3) Signs and whole parts -/

def neg : Binary64 → Binary64
  | nan => nan
  | infinite negative => infinite !negative
  | finite negative units h => finite (!negative) units h

def abs : Binary64 → Binary64
  | nan => nan
  | infinite _ => infinite false
  | finite _ units h => finite false units h

def trunc : Binary64 → Binary64
  | finite negative units h => finite negative (units / one * one) (representable_whole h)
  | x => x

/-! ## (4) Arithmetic -/

def signed (negative : Bool) (units : Nat) : Int := if negative then -(units : Int) else units

def add : Binary64 → Binary64 → Binary64
  | nan, _ => nan
  | _, nan => nan
  | infinite s, infinite t => if s = t then infinite s else nan
  | infinite s, _ => infinite s
  | _, infinite t => infinite t
  | finite s a _, finite t b _ =>
    let sum := signed s a + signed t b
    if sum = 0 then zero (s && t) else round (decide (sum < 0)) sum.natAbs 1

def sub (x y : Binary64) : Binary64 := x.add y.neg

def mul : Binary64 → Binary64 → Binary64
  | nan, _ => nan
  | _, nan => nan
  | infinite s, infinite t => infinite (s ^^ t)
  | infinite s, finite t b _ => if b = 0 then nan else infinite (s ^^ t)
  | finite s a _, infinite t => if a = 0 then nan else infinite (s ^^ t)
  | finite s a _, finite t b _ => round (s ^^ t) (a * b) one

def div : Binary64 → Binary64 → Binary64
  | nan, _ => nan
  | _, nan => nan
  | infinite _, infinite _ => nan
  | infinite s, finite t _ _ => infinite (s ^^ t)
  | finite s _ _, infinite t => zero (s ^^ t)
  | finite s a _, finite t b _ =>
    if b = 0 then (if a = 0 then nan else infinite (s ^^ t)) else round (s ^^ t) (a * one) b

def rem : Binary64 → Binary64 → Binary64
  | finite s a ha, finite _ b hb => if b = 0 then nan else finite s (a % b) (representable_mod ha hb)
  | finite s a ha, infinite _ => finite s a ha
  | _, _ => nan

end Binary64

end Positional
