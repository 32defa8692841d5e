/-
  Positional.Expression.Chance — what the random constant draws.

  A draw is a multiple of 2^-53 from zero up to one. Every occurrence of the constant in a text
  has a draw of its own, told apart by its position. A part of the text that is read once more
  draws anew: `beyond` gives it draws that neither the text nor another part has. `ofSeed` derives
  all of them from one seed: it mixes the bits of a counter that grows by an odd step.
-/
import Positional.TwoPow

namespace Positional

/-- The draws by position, in steps of 2^-53. -/
abbrev Chance := Nat → Fin (twoPow 53)

namespace Chance

/-- The draws of a part of a text with `length` characters; two parts have different numbers below 2. -/
def beyond (chance : Chance) (length part : Nat) : Chance := fun position => chance (length + 2 * position + part)

def mix (x : UInt64) : UInt64 :=
  let x := (x ^^^ (x >>> 30)) * 0xbf58476d1ce4e5b9
  let x := (x ^^^ (x >>> 27)) * 0x94d049bb133111eb
  x ^^^ (x >>> 31)

def ofSeed (seed : Nat) : Chance := fun position =>
  let bits := mix (UInt64.ofNat seed + UInt64.ofNat (position + 1) * 0x9e3779b97f4a7c15)
  ⟨(bits >>> 11).toNat % twoPow 53, Nat.mod_lt _ (twoPow_pos 53)⟩

end Chance

end Positional
