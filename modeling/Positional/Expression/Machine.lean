/-
  Positional.Expression.Machine — the elementary functions of the machine.

  They are those of the mathematical library that the program runs with, reached through
  the bit patterns of numbers.
-/
import Positional.Binary64.Bits
import Positional.Expression.Operation

namespace Positional

namespace Binary64

def toFloat (x : Binary64) : Float := Float.ofBits (UInt64.ofNat x.toBits)

def ofFloat (x : Float) : Binary64 := ofBits x.toBits.toNat

end Binary64

open Binary64

def Elementary.machineFunction : Function → Float → Float
  | .squareRoot => Float.sqrt
  | .cubeRoot => Float.cbrt
  | .sine => Float.sin
  | .cosine => Float.cos
  | .tangent => Float.tan
  | .arcSine => Float.asin
  | .arcCosine => Float.acos
  | .arcTangent => Float.atan
  | .hyperbolicSine => Float.sinh
  | .hyperbolicCosine => Float.cosh
  | .hyperbolicTangent => Float.tanh
  | .naturalLogarithm => Float.log
  | .commonLogarithm => Float.log10
  | .absoluteValue => Float.abs
  | .exponential => Float.exp

def Elementary.machine : Elementary where
  function f x := ofFloat (machineFunction f x.toFloat)
  power x y := ofFloat (Float.pow x.toFloat y.toFloat)

end Positional
