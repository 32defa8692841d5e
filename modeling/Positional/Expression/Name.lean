/-
  Positional.Expression.Name — the constants and functions that expressions can name.

  Names are matched in any letter case. Among all characters only A to Z and Π have a
  lower case that occurs in a name (`π` is one), so folding these decides the match.
  `π` and `√` are names of their own beside `pi` and `sqrt`.
-/
import Positional.Text

namespace Positional

inductive Constant where
  | pi
  | euler
  | random
  deriving DecidableEq, Repr

inductive Function where
  | squareRoot
  | cubeRoot
  | sine
  | cosine
  | tangent
  | arcSine
  | arcCosine
  | arcTangent
  | hyperbolicSine
  | hyperbolicCosine
  | hyperbolicTangent
  | naturalLogarithm
  | commonLogarithm
  | absoluteValue
  | exponential
  deriving DecidableEq, Repr

inductive Identifier where
  | constant (constant : Constant)
  | function (function : Function)
  deriving DecidableEq, Repr

def Constant.name : Constant → Text
  | pi => "pi".toList
  | euler => "e".toList
  | random => "rand".toList

def Function.name : Function → Text
  | squareRoot => "sqrt".toList
  | cubeRoot => "cbrt".toList
  | sine => "sin".toList
  | cosine => "cos".toList
  | tangent => "tan".toList
  | arcSine => "asin".toList
  | arcCosine => "acos".toList
  | arcTangent => "atan".toList
  | hyperbolicSine => "sinh".toList
  | hyperbolicCosine => "cosh".toList
  | hyperbolicTangent => "tanh".toList
  | naturalLogarithm => "ln".toList
  | commonLogarithm => "log".toList
  | absoluteValue => "abs".toList
  | exponential => "exp".toList

def Constant.all : List Constant := [.pi, .euler, .random]

def Function.all : List Function :=
  [.squareRoot, .cubeRoot, .sine, .cosine, .tangent, .arcSine, .arcCosine, .arcTangent, .hyperbolicSine,
    .hyperbolicCosine, .hyperbolicTangent, .naturalLogarithm, .commonLogarithm, .absoluteValue, .exponential]

namespace Identifier

def name : Identifier → Text
  | constant c => c.name
  | function f => f.name

def fold (c : Char) : Char := if c = 'Π' then 'π' else c.toLower

/-- Every name with what it stands for. -/
def names : List (Text × Identifier) :=
  Constant.all.map (fun c => (c.name, constant c)) ++ Function.all.map (fun f => (f.name, function f)) ++
    [("π".toList, constant .pi), ("√".toList, function .squareRoot)]

def ofText? (t : Text) : Option Identifier := names.lookup (t.map fold)

end Identifier

end Positional
