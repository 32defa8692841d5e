/-
  Positional.Binary64.Bits — the 64-bit interchange pattern of a number.

  From the top: one bit of sign, eleven of exponent, fifty-two of fraction. An exponent
  field e > 0 stands for the significand 2^52 + fraction with weight 2^(e-1) units, the
  field 0 for the bare fraction, and 2047 for infinities (fraction 0) and not-a-number.
  So the pattern without its sign is `exponent · 2^52 + significand`, where the significand
  carries into the exponent field by itself.

  Any pattern of not-a-number is read; one is written.
-/
import Positional.Binary64

namespace Positional.Binary64

def signBit (negative : Bool) : Nat := if negative then twoPow 63 else 0

/-- The pattern, a number below 2^64. -/
def toBits : Binary64 → Nat
  | nan => 2047 * twoPow 52 + twoPow 51
  | infinite negative => signBit negative + 2047 * twoPow 52
  | finite negative units _ => signBit negative + ((units.log2 - 52) * twoPow 52 + units / step units)

def ofBits (bits : Nat) : Binary64 :=
  let negative := decide (bits / twoPow 63 % 2 = 1)
  let fraction := bits % twoPow 52
  have hf : fraction < twoPow 52 := Nat.mod_lt _ (twoPow_pos 52)
  have h53 : twoPow 53 = 2 * twoPow 52 := twoPow_succ 52
  match bits / twoPow 52 % 2048 with
  | 0 => finite negative (fraction * twoPow 0) (representable_scaled (by omega) (by decide))
  | e + 1 =>
    if he : e < 2046 then
      finite negative ((twoPow 52 + fraction) * twoPow e) (representable_scaled (by omega) (by omega))
    else if fraction = 0 then infinite negative
    else nan

end Positional.Binary64
