/-
  Positional.Proofs.Expression.Factorial — the factorial in 64-bit words.

  A word is the remainder of a natural number, so the loop keeps the word of the product that it would
  make without a limit (`multiplyUp_ofNat`). A product of zero stays zero: to stop there changes
  nothing. So the answer is the factorial of the whole part, wrapped around once at the end.

  66! is the first factorial with sixty-four factors of two (`word_factorial_eq_zero_iff`). The loop has
  made 65 products by then, and it makes no more, whatever its bound (`length_products_le`).

  Up to 20! nothing is wrapped, and the odd part has no more than 53 bits (`toRat_ofInt_factorial`).
-/
import Mathlib.Data.Nat.Factorial.Basic
import Positional.Expression.Operation
import Positional.Proofs.Binary64.Rational

namespace Positional

open Binary64

/-! ## (1) The loop -/

theorem multiplyUp_succ (count next : Nat) (product : Int64) :
    multiplyUp (count + 1) next product =
      if product * Int64.ofNat next = 0 then 0 else multiplyUp count (next + 1) (product * Int64.ofNat next) := by
  simp only [multiplyUp, products, List.getLastD_cons]
  split
  · rename_i h
    rw [h]
    rfl
  · rfl

theorem mul_ascFactorial (n k : Nat) : n * (n + 1).ascFactorial k = n.ascFactorial (k + 1) := by
  have h := Nat.ascFactorial_mul_ascFactorial n 1 k
  rwa [Nat.ascFactorial_succ, Nat.ascFactorial_zero, Nat.add_zero, Nat.mul_one, Nat.add_comm 1 k] at h

/-- The loop keeps the word of the product of all its factors. -/
theorem multiplyUp_ofNat (count next m : Nat) :
    multiplyUp count next (Int64.ofNat m) = Int64.ofNat (m * next.ascFactorial count) := by
  induction count generalizing next m with
  | zero =>
    rw [Nat.ascFactorial_zero, Nat.mul_one]
    rfl
  | succ count ih =>
    have hall : m * next.ascFactorial (count + 1) = m * next * (next + 1).ascFactorial count := by
      rw [← mul_ascFactorial, Nat.mul_assoc]
    rw [multiplyUp_succ, ← Int64.ofNat_mul, hall]
    split
    · rename_i h
      rw [Int64.ofNat_mul (m * next), h, Int64.zero_mul]
    · exact ih _ _

/-- Where the product is zero after `k + 1` factors, no more of them are taken. -/
theorem length_products_le {k count next m : Nat} (h : Int64.ofNat (m * next.ascFactorial (k + 1)) = 0) :
    (products count next (Int64.ofNat m)).length ≤ k + 1 := by
  induction k generalizing count next m with
  | zero =>
    cases count with
    | zero => exact Nat.zero_le _
    | succ count =>
      have h0 : Int64.ofNat (m * next) = 0 := by simpa [Nat.ascFactorial_succ] using h
      simp only [products, ← Int64.ofNat_mul, h0, if_true, List.length_singleton]
      exact Nat.le_refl 1
  | succ k ih =>
    cases count with
    | zero => exact Nat.zero_le _
    | succ count =>
      rw [← mul_ascFactorial, ← Nat.mul_assoc] at h
      simp only [products, ← Int64.ofNat_mul, List.length_cons]
      split
      · exact Nat.succ_le_succ (Nat.zero_le _)
      · exact Nat.succ_le_succ (ih h)

/-! ## (2) The words of factorials -/

theorem ofNat_eq_zero_iff {n : Nat} : Int64.ofNat n = 0 ↔ twoPow 64 ∣ n := by
  rw [← Int64.toInt_inj, Int64.toInt_ofNat', Int64.toInt_zero, ← Int.dvd_iff_bmod_eq_zero, Int.natCast_dvd_natCast]
  exact Iff.rfl

theorem word_factorial_eq_zero_iff {n : Nat} : Int64.ofNat n.factorial = 0 ↔ 66 ≤ n := by
  rw [ofNat_eq_zero_iff]
  constructor
  · intro h
    refine Nat.le_of_not_lt fun hn => ?_
    have h65 : ¬ twoPow 64 ∣ Nat.factorial 65 := by decide +kernel
    exact h65 (Nat.dvd_trans h (Nat.factorial_dvd_factorial (Nat.le_of_lt_succ hn)))
  · intro h
    have h66 : twoPow 64 ∣ Nat.factorial 66 := by decide +kernel
    exact Nat.dvd_trans h66 (Nat.factorial_dvd_factorial h)

theorem multiplyUp_factorial (n : Nat) : multiplyUp (n - 1) 2 1 = Int64.ofNat n.factorial := by
  have h := multiplyUp_ofNat (n - 1) 2 1
  rw [Nat.one_mul] at h
  refine h.trans (congrArg Int64.ofNat ?_)
  rcases Nat.eq_zero_or_pos n with rfl | hn
  · rfl
  · have hall := Nat.factorial_mul_ascFactorial 1 (n - 1)
    rwa [Nat.factorial_one, Nat.one_mul, Nat.add_sub_cancel' hn] at hall

theorem length_products_factorial_le (count : Nat) : (products count 2 1).length ≤ 65 :=
  length_products_le (k := 64) (m := 1) (by decide +kernel)

/-! ## (3) The words as numbers -/

theorem ofInt_natCast (m : Nat) : ofInt m = ofNat m := by
  rw [ofInt, ofNat, ofRatio, Int.natAbs_natCast, decide_eq_false (by omega)]

theorem ofInt_eq_zero_iff {m : Int} : ofInt m = zero false ↔ m = 0 := by
  constructor
  · intro h
    refine Classical.byContradiction fun hm => ?_
    have hpos : 0 < m.natAbs * one / 1 := by
      rw [Nat.div_one]
      exact Nat.mul_pos (Int.natAbs_pos.mpr hm) Binary64.one_pos
    have hzero : (round (decide (m < 0)) (m.natAbs * one) 1).isZero = false := isZero_round hpos
    rw [← ofInt, h] at hzero
    cases hzero
  · rintro rfl
    have hzero := round_of_representable false representable_zero Nat.one_pos
    rw [Nat.zero_mul] at hzero
    rw [ofInt, Int.natAbs_zero, Nat.zero_mul]
    exact hzero

/-- The factors of two leave room for all other digits. -/
theorem representable_factorial {n : Nat} (h : n ≤ 20) : Representable (n.factorial * one) := by
  have table : ∀ n : Fin 21, Nat.factorial n = Nat.factorial n / twoPow (n - 4) * twoPow (n - 4) ∧
      Nat.factorial n / twoPow (n - 4) < twoPow 53 := by
    decide +kernel
  obtain ⟨hsplit, hlt⟩ := table ⟨n, Nat.lt_succ_of_le h⟩
  rw [hsplit, one, Nat.mul_assoc, ← twoPow_add]
  exact representable_scaled hlt (by omega)

/-- Up to 20! nothing is wrapped and nothing is rounded. -/
theorem toRat_ofInt_factorial {n : Nat} (h : n ≤ 20) :
    let y := ofInt ((n.factorial : Int).bmod (twoPow 64))
    y.isFinite = true ∧ y.toRat = n.factorial := by
  intro y
  have hle : n.factorial ≤ Nat.factorial 20 := Nat.factorial_le h
  have h20 : Nat.factorial 20 * 2 < twoPow 64 := by decide +kernel
  have hword : (n.factorial : Int).bmod (twoPow 64) = n.factorial := by
    refine Int.bmod_eq_of_le_mul_two ?_ ?_ <;> omega
  obtain ⟨hrep, hy⟩ := measures_ofNat (representable_factorial h)
  have hvalue : y = finite false (n.factorial * one) hrep := by
    rw [← hy, ← ofInt_natCast, ← hword]
  rw [hvalue]
  refine ⟨rfl, ?_⟩
  rw [toRat_finite, if_neg Bool.false_ne_true, one_mul, Nat.cast_mul, mul_div_cancel_right₀ _ one_pos_rat.ne']

/-! ## (4) The answer -/

theorem wordPart_finite {x : Binary64} (hx : x.isFinite = true) (h0 : 0 ≤ x.toRat) :
    wordPart x = min ⌊x.toRat⌋₊ (twoPow 63 - 1) := by
  cases x with
  | nan | infinite => cases hx
  | finite s u h =>
    have hword : wordPart (finite s u h) = min (finite s u h).wholePart (twoPow 63 - 1) := rfl
    rw [hword, wholePart_eq, abs_of_nonneg h0]

/-- The factorial of a number that is not negative is the factorial of its whole part, as far as a word holds it,
wrapped around to a word and rounded to a number. Up to 20 it is exact, and from 66 on, and not before, it is
zero. Below zero there is none. No more than 65 products are ever made. -/
theorem factorial_wraps_once (x : Binary64) :
    (x.isFinite = true → 0 ≤ x.toRat →
      let n := min ⌊x.toRat⌋₊ (twoPow 63 - 1)
      factorial x = .ok (.ofInt ((n.factorial : ℤ).bmod (twoPow 64))) ∧
        (n ≤ 20 → ∃ y, factorial x = .ok y ∧ y.isFinite = true ∧ y.toRat = n.factorial) ∧
        (66 ≤ n ↔ factorial x = .ok (.zero false))) ∧
      (x = .infinite true ∨ x.isFinite = true ∧ x.toRat < 0 → factorial x = .error (.negativeFactorial x)) ∧
      (products (wordPart x - 1) 2 1).length ≤ 65 := by
  refine ⟨fun hx h0 => ?_, ?_, length_products_factorial_le _⟩
  · intro n
    have hnot : x.isBelowZero ≠ true := fun hb => not_lt.mpr h0 ((isBelowZero_iff x hx).mp hb)
    have hall : factorial x = .ok (.ofInt (Int64.ofNat n.factorial).toInt) := by
      rw [factorial, if_neg hnot, wordPart_finite hx h0, multiplyUp_factorial]
    have hbmod : factorial x = .ok (.ofInt ((n.factorial : ℤ).bmod (twoPow 64))) := by
      rw [hall, Int64.toInt_ofNat']
      rfl
    refine ⟨hbmod, fun hn => ⟨_, hbmod, toRat_ofInt_factorial hn⟩, ?_⟩
    rw [hall, Except.ok.injEq, ofInt_eq_zero_iff, ← word_factorial_eq_zero_iff, ← Int64.toInt_inj, Int64.toInt_zero]
  · rintro (rfl | ⟨hx, hlt⟩)
    · rfl
    · rw [factorial, if_pos ((isBelowZero_iff x hx).mpr hlt)]

/-- 21.5 and 66, of which the factorials are wrapped around, and minus one half. -/
theorem factorial_wraps_once_twenty_one :
    let x : Binary64 := .finite false (43 * twoPow 1073) (representable_scaled (by decide) (by decide))
    let y : Binary64 := .finite false (66 * one) (representable_ofNat (by decide))
    let z : Binary64 := .finite true (twoPow 1073) (representable_twoPow (by decide))
    factorial x = .ok (.ofInt (-4249290049419214848)) ∧ factorial y = .ok (.zero false) ∧
      z.isFinite = true ∧ z.toRat < 0 ∧ factorial z = .error (.negativeFactorial z) := by
  intro x y z
  have hx : x.toRat = 43 / 2 := by
    rw [toRat_finite, if_neg Bool.false_ne_true, one_mul, scaled_div_one 43 (j := 1) rfl]
    norm_num
  have hy : y.toRat = 66 := by
    rw [toRat_finite, if_neg Bool.false_ne_true, one_mul, Nat.cast_mul, mul_div_cancel_right₀ _ one_pos_rat.ne']
    norm_num
  have hz : z.toRat < 0 := (isBelowZero_iff z rfl).mp (by decide +kernel)
  have hwhole : min ⌊x.toRat⌋₊ (twoPow 63 - 1) = 21 := by
    have hfloor : ⌊(43 / 2 : ℚ)⌋₊ = 21 := by norm_num
    rw [hx, hfloor]
    decide
  have hlarge : 66 ≤ min ⌊y.toRat⌋₊ (twoPow 63 - 1) := by
    have hfloor : ⌊(66 : ℚ)⌋₊ = 66 := by norm_num
    rw [hy, hfloor]
    decide
  obtain ⟨hwrapped, -⟩ := (factorial_wraps_once x).1 rfl (by rw [hx]; norm_num)
  have hbmod : (Nat.factorial 21 : ℤ).bmod (twoPow 64) = -4249290049419214848 := by decide +kernel
  rw [hwhole, hbmod] at hwrapped
  obtain ⟨-, -, hzero⟩ := (factorial_wraps_once y).1 rfl (by rw [hy]; norm_num)
  exact ⟨hwrapped, hzero.mp hlarge, rfl, hz, (factorial_wraps_once z).2.1 (Or.inr ⟨rfl, hz⟩)⟩

end Positional
