/-
  Positional.TwoPow — powers of two.

  They are the bounds of words and the spacings of floating-point numbers. `twoPow k` is the
  product of `k` twos; the lemmas say how it grows.
-/

namespace Positional

def twoPow (k : Nat) : Nat := Nat.pow 2 k

theorem twoPow_zero : twoPow 0 = 1 := rfl

theorem twoPow_succ (k : Nat) : twoPow (k + 1) = 2 * twoPow k := Nat.mul_comm _ _

theorem twoPow_pos (k : Nat) : 0 < twoPow k := Nat.two_pow_pos k

theorem twoPow_add (j k : Nat) : twoPow (j + k) = twoPow j * twoPow k := Nat.pow_add 2 j k

theorem twoPow_le {j k : Nat} (h : j ≤ k) : twoPow j ≤ twoPow k := Nat.pow_le_pow_right (by decide) h

theorem lt_twoPow_log2 (n : Nat) : n < twoPow (n.log2 + 1) := Nat.lt_log2_self

end Positional
