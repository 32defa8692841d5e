/-
  Positional.Binary64.Grid — the magnitudes that 64-bit floating point can hold.

  Magnitudes are counted in units of 2^-1074, the least of them, so a magnitude is a natural
  number and all arithmetic on it is exact. The unit counts that can be held form a grid:

  - below 2^53 every count is on the grid; from there on the spacing doubles with every
    power of two (`step`), so that a count has 53 significant bits;
  - the grid ends below `ceiling`, the count of 2^1024.

  A quotient of natural numbers is rounded to the nearest count on the grid, halfway cases
  to the even multiple of the step (`roundUnits`).

  `representable_roundUnits`: below the ceiling the rounded count is on the grid.
  `representable_mod`, `representable_whole`: remainders and whole parts stay on it.
-/
import Positional.TwoPow

namespace Positional.Binary64

/-- The units in the number one. -/
def one : Nat := twoPow 1074

/-- The first unit count that is too large, that of 2^1024. -/
def ceiling : Nat := twoPow 2098

/-- The distance from a count on the grid to the next larger one. -/
def step (units : Nat) : Nat := twoPow (units.log2 - 52)

def Representable (units : Nat) : Prop :=
  units < ceiling ∧ ∃ significand exponent, significand < twoPow 53 ∧ units = significand * twoPow exponent

/-- The natural number nearest to `num / den`; halfway between two, the even one. -/
def nearest (num den : Nat) : Nat :=
  let quotient := num / den
  let twice := 2 * (num % den)
  if twice < den ∨ (twice = den ∧ quotient % 2 = 0) then quotient else quotient + 1

/-- The count on the grid nearest to `num / den`, were the grid without end. -/
def roundUnits (num den : Nat) : Nat :=
  let spacing := step (num / den)
  nearest num (den * spacing) * spacing

/-! ## (1) Rounding lands on the grid -/

theorem one_pos : 0 < one := twoPow_pos 1074

theorem ceiling_pos : 0 < ceiling := twoPow_pos 2098

theorem nearest_le (num den : Nat) : nearest num den ≤ num / den + 1 := by
  simp only [nearest]
  split <;> omega

theorem div_step_lt (n : Nat) : n / step n < twoPow 53 := by
  rw [step, Nat.div_lt_iff_lt_mul (twoPow_pos _), ← twoPow_add]
  exact Nat.lt_of_lt_of_le (lt_twoPow_log2 n) (twoPow_le (by omega))

theorem nearest_step_le (num den : Nat) : nearest num (den * step (num / den)) ≤ twoPow 53 := by
  refine Nat.le_trans (nearest_le _ _) ?_
  rw [← Nat.div_div_eq_div_mul]
  exact div_step_lt _

theorem representable_roundUnits {num den : Nat} (h : roundUnits num den < ceiling) :
    Representable (roundUnits num den) := by
  refine ⟨h, ?_⟩
  rcases Nat.lt_or_eq_of_le (nearest_step_le num den) with hlt | heq
  · exact ⟨_, _, hlt, rfl⟩
  · refine ⟨twoPow 52, (num / den).log2 - 52 + 1, by decide, ?_⟩
    rw [roundUnits, heq, step, ← twoPow_add, ← twoPow_add]
    congr 1
    omega

/-! ## (2) Exact operations that stay on the grid -/

theorem representable_zero : Representable 0 :=
  ⟨ceiling_pos, 0, 0, by decide, by decide⟩

theorem representable_scaled {significand exponent : Nat} (hs : significand < twoPow 53)
    (he : exponent ≤ 2045) : Representable (significand * twoPow exponent) := by
  refine ⟨?_, significand, exponent, hs, rfl⟩
  refine Nat.lt_of_lt_of_le (Nat.mul_lt_mul_of_pos_right hs (twoPow_pos exponent)) ?_
  rw [← twoPow_add]
  exact twoPow_le (by omega)

theorem representable_mod {a b : Nat} (ha : Representable a) (hb : Representable b) :
    Representable (a % b) := by
  refine ⟨Nat.lt_of_le_of_lt (Nat.mod_le _ _) ha.1, ?_⟩
  obtain ⟨_, m, e, hm, rfl⟩ := ha
  obtain ⟨_, n, f, hn, rfl⟩ := hb
  rcases Nat.le_total e f with hef | hef
  · obtain ⟨d, rfl⟩ := Nat.exists_eq_add_of_le hef
    rw [show n * twoPow (e + d) = n * twoPow d * twoPow e by
        rw [twoPow_add, Nat.mul_assoc, Nat.mul_comm (twoPow d)],
      Nat.mul_mod_mul_right]
    exact ⟨_, e, Nat.lt_of_le_of_lt (Nat.mod_le _ _) hm, rfl⟩
  · obtain ⟨d, rfl⟩ := Nat.exists_eq_add_of_le hef
    rw [show m * twoPow (f + d) = m * twoPow d * twoPow f by
        rw [twoPow_add, Nat.mul_assoc, Nat.mul_comm (twoPow d)],
      Nat.mul_mod_mul_right]
    rcases Nat.eq_zero_or_pos n with rfl | hpos
    · exact ⟨m, d + f, hm, by rw [Nat.mod_zero, twoPow_add, Nat.mul_assoc]⟩
    · exact ⟨_, f, Nat.lt_trans (Nat.mod_lt _ hpos) hn, rfl⟩

theorem representable_whole {a : Nat} (ha : Representable a) : Representable (a / one * one) := by
  refine ⟨Nat.lt_of_le_of_lt (Nat.div_mul_le_self _ _) ha.1, ?_⟩
  obtain ⟨_, m, e, hm, rfl⟩ := ha
  rcases Nat.le_total 1074 e with he | he
  · obtain ⟨d, rfl⟩ := Nat.exists_eq_add_of_le he
    refine ⟨m, 1074 + d, hm, ?_⟩
    rw [twoPow_add, ← one, Nat.mul_left_comm, Nat.mul_div_cancel_left _ one_pos, Nat.mul_comm]
  · have hle : m * twoPow e / one ≤ m :=
      Nat.le_trans (Nat.div_le_div_right (Nat.mul_le_mul_left m (twoPow_le he)))
        (Nat.le_of_eq (Nat.mul_div_cancel m one_pos))
    exact ⟨_, 1074, Nat.lt_of_le_of_lt hle hm, rfl⟩

end Positional.Binary64
