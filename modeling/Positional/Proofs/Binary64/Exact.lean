/-
  Positional.Proofs.Binary64.Exact — where rounding does nothing.

  A count on the grid is rounded to itself (`roundUnits_of_representable`), and rounding keeps the
  order of quotients (`roundUnits_mono`), so it never passes a count on the grid.

  The grid is closed under the cut at any power of two (`representable_cut`), under scaling by one
  (`representable_scale`, `Representable.unscale`) and holds the whole numbers up to 2^53
  (`representable_ofNat`). An operation on non-negative numbers is exact as soon as its exact result
  is on the grid: `x.Measures n` says that `x` is the number of `n` units, and there is one
  lemma for each operation.
-/
import Positional.Proofs.Binary64

namespace Positional.Binary64

/-! ## (1) Counts on the grid -/

theorem twoPow_lt {j k : Nat} (h : j < k) : twoPow j < twoPow k := Nat.pow_lt_pow_right (by decide) h

theorem log2_lt_iff {n k : Nat} (h : n ≠ 0) : n.log2 < k ↔ n < twoPow k := Nat.log2_lt h

theorem step_dvd {n : Nat} (h : Representable n) : step n ∣ n := by
  obtain ⟨-, m, e, hm, rfl⟩ := h
  by_cases h0 : m = 0
  · rw [h0, Nat.zero_mul]
    exact Nat.dvd_zero _
  · have hlog : (m * twoPow e).log2 < 53 + e := by
      rw [log2_lt_iff (Nat.ne_of_gt (Nat.mul_pos (Nat.pos_of_ne_zero h0) (twoPow_pos e)))]
      have := Nat.mul_lt_mul_of_pos_right hm (twoPow_pos e)
      rwa [← twoPow_add] at this
    obtain ⟨d, hd⟩ : ∃ d, e = (m * twoPow e).log2 - 52 + d := ⟨_, (Nat.add_sub_cancel' (by omega)).symm⟩
    rw [step]
    refine Nat.dvd_trans ?_ (Nat.dvd_mul_left (twoPow e) m)
    exact Nat.pow_dvd_pow 2 (by omega)

/-- Cutting off everything below a power of two. -/
theorem representable_cut {n : Nat} (h : Representable n) (k : Nat) : Representable (n / twoPow k * twoPow k) := by
  refine ⟨Nat.lt_of_le_of_lt (Nat.div_mul_le_self _ _) h.1, ?_⟩
  obtain ⟨-, m, e, hm, rfl⟩ := h
  rcases Nat.le_total k e with hk | hk
  · obtain ⟨d, rfl⟩ := Nat.exists_eq_add_of_le hk
    refine ⟨m, k + d, hm, ?_⟩
    rw [twoPow_add, Nat.mul_left_comm, Nat.mul_div_cancel_left _ (twoPow_pos k), Nat.mul_comm]
  · obtain ⟨d, rfl⟩ := Nat.exists_eq_add_of_le hk
    refine ⟨m / twoPow d, e + d, Nat.lt_of_le_of_lt (Nat.div_le_self _ _) hm, ?_⟩
    rw [twoPow_add, Nat.mul_comm (twoPow e), Nat.mul_div_mul_right _ _ (twoPow_pos e)]

theorem representable_scale {n k : Nat} (h : Representable n) (hlt : n * twoPow k < ceiling) :
    Representable (n * twoPow k) := by
  obtain ⟨-, m, e, hm, rfl⟩ := h
  exact ⟨hlt, m, e + k, hm, by rw [twoPow_add, Nat.mul_assoc]⟩

theorem Representable.unscale {n k : Nat} (h : Representable (n * twoPow k)) : Representable n := by
  have hle : n ≤ n * twoPow k := Nat.le_mul_of_pos_right n (twoPow_pos k)
  refine ⟨Nat.lt_of_le_of_lt hle h.1, ?_⟩
  obtain ⟨-, m, e, hm, he⟩ := h
  rcases Nat.le_total k e with hk | hk
  · obtain ⟨d, rfl⟩ := Nat.exists_eq_add_of_le hk
    refine ⟨m, d, hm, Nat.eq_of_mul_eq_mul_right (twoPow_pos k) ?_⟩
    rw [he, twoPow_add, Nat.mul_assoc, Nat.mul_comm (twoPow k)]
  · obtain ⟨d, rfl⟩ := Nat.exists_eq_add_of_le hk
    rw [twoPow_add, Nat.mul_comm (twoPow e), ← Nat.mul_assoc] at he
    have hn : n * twoPow d = m := Nat.eq_of_mul_eq_mul_right (twoPow_pos e) he
    have : n ≤ n * twoPow d := Nat.le_mul_of_pos_right n (twoPow_pos d)
    exact ⟨n, 0, by omega, by rw [twoPow_zero, Nat.mul_one]⟩

/-- The whole numbers up to 2^53 are on the grid, 2^53 itself with a smaller significand. -/
theorem representable_ofNat {n : Nat} (h : n ≤ twoPow 53) : Representable (n * one) := by
  rcases Nat.lt_or_eq_of_le h with hlt | rfl
  · exact representable_scaled hlt (by decide)
  · rw [one, ← twoPow_add, ← Nat.one_mul (twoPow _)]
    exact representable_scaled (by decide) (by decide)

theorem representable_twoPow {e : Nat} (h : e < 2098) : Representable (twoPow e) :=
  ⟨twoPow_lt h, 1, e, by decide, (Nat.one_mul _).symm⟩

theorem representable_one : Representable one := representable_twoPow (by decide)

/-! ## (2) Rounding -/

theorem nearest_mul (n : Nat) {den : Nat} (h : 0 < den) : nearest (n * den) den = n := by
  simp only [nearest, Nat.mul_mod_left, Nat.mul_div_cancel n h]
  rw [if_pos (Or.inl (by omega))]

/-- Multiples of their own step are not rounded. -/
theorem roundUnits_of_step_dvd {n den : Nat} (h : step n ∣ n) (hd : 0 < den) : roundUnits (n * den) den = n := by
  obtain ⟨q, hq⟩ := h
  have hs : n * den = q * (den * step n) := by
    rw [Nat.mul_left_comm, ← Nat.mul_comm (step n), ← hq, Nat.mul_comm]
  simp only [roundUnits, Nat.mul_div_cancel n hd]
  have hpos : 0 < den * step n := Nat.mul_pos hd (twoPow_pos _)
  rw [hs, nearest_mul q hpos, Nat.mul_comm, ← hq]

theorem roundUnits_of_representable {n den : Nat} (h : Representable n) (hd : 0 < den) :
    roundUnits (n * den) den = n := roundUnits_of_step_dvd (step_dvd h) hd

theorem div_le_div_of_cross {a b c d : Nat} (hb : 0 < b) (hd : 0 < d) (h : a * d ≤ c * b) : a / b ≤ c / d := by
  rw [Nat.le_div_iff_mul_le hd]
  refine Nat.le_of_mul_le_mul_right ?_ hb
  calc a / b * d * b = a / b * b * d := Nat.mul_right_comm _ _ _
    _ ≤ a * d := Nat.mul_le_mul_right d (Nat.div_mul_le_self a b)
    _ ≤ c * b := h

theorem nearest_mono {a b c d : Nat} (hb : 0 < b) (hd : 0 < d) (h : a * d ≤ c * b) : nearest a b ≤ nearest c d := by
  have hq := div_le_div_of_cross hb hd h
  rcases Nat.lt_or_eq_of_le hq with hlt | heq
  · have := nearest_le a b
    have := le_nearest c d
    omega
  -- equal quotients: the remainders decide, and they are in the order of the fractions
  have hr : a % b * d ≤ c % d * b := by
    have ha := Nat.div_add_mod a b
    have hc := Nat.div_add_mod c d
    rw [← ha, ← hc, ← heq, Nat.add_mul, Nat.add_mul, Nat.mul_right_comm b, Nat.mul_right_comm d,
      Nat.mul_comm b d] at h
    omega
  have htwice : 2 * (a % b) * d ≤ 2 * (c % d) * b := by
    rw [Nat.mul_assoc, Nat.mul_assoc]
    exact Nat.mul_le_mul_left 2 hr
  simp only [nearest, heq]
  by_cases hdown : 2 * (c % d) < d ∨ (2 * (c % d) = d ∧ c / d % 2 = 0)
  · have hdown' : 2 * (a % b) < b ∨ (2 * (a % b) = b ∧ c / d % 2 = 0) := by
      rcases hdown with hlt | ⟨he, heven⟩
      · have hlt' := Nat.lt_of_le_of_lt htwice (Nat.mul_lt_mul_of_pos_right hlt hb)
        rw [Nat.mul_comm d b] at hlt'
        exact Or.inl (Nat.lt_of_mul_lt_mul_right hlt')
      · rw [he, Nat.mul_comm d b] at htwice
        have := Nat.le_of_mul_le_mul_right htwice hd
        omega
    exact Nat.le_of_eq (by rw [if_pos hdown, if_pos hdown'])
  · rw [if_neg hdown]
    split <;> omega

theorem step_mono {m n : Nat} (h : m ≤ n) : step m ≤ step n := by
  refine twoPow_le (Nat.sub_le_sub_right ?_ 52)
  by_cases hm : m = 0
  · rw [hm]
    exact Nat.zero_le _
  · exact (Nat.le_log2 (by omega)).mpr (Nat.le_trans (Nat.log2_self_le hm) h)

/-- Below a change of the step rounding goes up to it at most, above it down to it at most. -/
theorem roundUnits_le_twoPow {num den k : Nat} (hk : 53 ≤ k) (h : (num / den).log2 < k) :
    roundUnits num den ≤ twoPow k := by
  have hn := Nat.mul_le_mul_right (step (num / den)) (nearest_step_le num den)
  refine Nat.le_trans hn ?_
  rw [step, ← twoPow_add]
  exact twoPow_le (by omega)

theorem twoPow_le_roundUnits {num den : Nat} (h : 52 ≤ (num / den).log2) :
    twoPow (num / den).log2 ≤ roundUnits num den := by
  have hn := le_nearest num (den * step (num / den))
  rw [← Nat.div_div_eq_div_mul] at hn
  have hq : twoPow 52 ≤ num / den / step (num / den) := by
    rw [step, Nat.le_div_iff_mul_le (twoPow_pos _), ← twoPow_add, Nat.add_sub_cancel' h]
    refine Nat.log2_self_le fun h0 => ?_
    rw [h0] at h
    exact absurd h (by decide)
  calc twoPow (num / den).log2 = twoPow 52 * step (num / den) := by
        rw [step, ← twoPow_add, Nat.add_sub_cancel' h]
    _ ≤ roundUnits num den := Nat.mul_le_mul_right _ (Nat.le_trans hq hn)

theorem roundUnits_mono {a b c d : Nat} (hb : 0 < b) (hd : 0 < d) (h : a * d ≤ c * b) :
    roundUnits a b ≤ roundUnits c d := by
  have hq := div_le_div_of_cross hb hd h
  by_cases hs : step (a / b) = step (c / d)
  · simp only [roundUnits, hs]
    refine Nat.mul_le_mul_right _ (nearest_mono (Nat.mul_pos hb (twoPow_pos _)) (Nat.mul_pos hd (twoPow_pos _)) ?_)
    rw [← Nat.mul_assoc, ← Nat.mul_assoc]
    exact Nat.mul_le_mul_right _ h
  · have hlog : (a / b).log2 < (c / d).log2 ∧ 53 ≤ (c / d).log2 := by
      have hlt := Nat.lt_of_le_of_ne (step_mono hq) hs
      have := (Nat.pow_lt_pow_iff_right (by decide : 1 < 2)).mp hlt
      omega
    exact Nat.le_trans (roundUnits_le_twoPow hlog.2 hlog.1) (twoPow_le_roundUnits (by omega))

theorem round_of_representable (negative : Bool) {n den : Nat} (h : Representable n) (hd : 0 < den) :
    round negative (n * den) den = finite negative n h := by
  have hr := roundUnits_of_representable h hd
  unfold round
  rw [dif_pos (by rw [hr]; exact h.1)]
  simp only [hr]

/-! ## (3) Operations -/

/-- The non-negative number of `n` units. -/
def Measures (x : Binary64) (n : Nat) : Prop := ∃ h, x = finite false n h

theorem measures_zero : (zero false).Measures 0 := ⟨_, rfl⟩

theorem measures_ofNat {n : Nat} (h : Representable (n * one)) : (ofNat n).Measures (n * one) := by
  refine ⟨h, ?_⟩
  rw [ofNat, ofRatio]
  simpa using round_of_representable false h Nat.one_pos

/-- A whole decimal that is not too long. -/
theorem measures_ofDecimal {n : Nat} (hn : n ≤ twoPow 53) : (ofDecimal ⟨n, 0⟩).Measures (n * one) := by
  by_cases h0 : n = 0
  · rw [h0, Nat.zero_mul]
    exact measures_zero
  · have hlen : (Text.ofNat n).length ≤ 16 :=
      (Nat.length_toDigits_le_iff (by decide) (by decide)).mpr (Nat.lt_of_le_of_lt hn (by decide))
    have hlow : ¬ (0 + ((Text.ofNat n).length : Int) < -330) := by omega
    have hhigh : ¬ (310 < 0 + ((Text.ofNat n).length : Int)) := by omega
    have heq : ofDecimal ⟨n, 0⟩ = ofNat n := by
      simp only [ofDecimal, h0, hlow, hhigh, or_false, if_false, Int.le_refl, if_true, Int.toNat_zero]
      rw [ofNat, show Nat.pow 10 0 = 1 from rfl, Nat.mul_one]
    rw [heq]
    exact measures_ofNat (representable_ofNat hn)

variable {x y : Binary64} {a b c : Nat}

theorem Measures.add (hx : x.Measures a) (hy : y.Measures b) (h : Representable (a + b)) :
    (x.add y).Measures (a + b) := by
  obtain ⟨_, rfl⟩ := hx
  obtain ⟨_, rfl⟩ := hy
  refine ⟨h, ?_⟩
  simp only [Binary64.add, signed, Bool.false_eq_true, if_false]
  split
  · have : a + b = 0 := by omega
    simp [zero, this]
  · have hsum : ((a : Int) + b).natAbs = (a + b) * 1 := by omega
    have hneg : decide ((a : Int) + b < 0) = false := by
      rw [decide_eq_false_iff_not]
      omega
    rw [hsum, hneg, round_of_representable false h Nat.one_pos]

theorem Measures.sub (hx : x.Measures a) (hy : y.Measures b) (hle : b ≤ a) (h : Representable (a - b)) :
    (x.sub y).Measures (a - b) := by
  obtain ⟨_, rfl⟩ := hx
  obtain ⟨_, rfl⟩ := hy
  refine ⟨h, ?_⟩
  simp only [Binary64.sub, neg, Binary64.add, signed, Bool.not_false, Bool.false_eq_true, if_false, if_true]
  split
  · have : a - b = 0 := by omega
    simp [zero, this]
  · have hsum : ((a : Int) + -(b : Int)).natAbs = (a - b) * 1 := by omega
    have hneg : decide ((a : Int) + -(b : Int) < 0) = false := by
      rw [decide_eq_false_iff_not]
      omega
    rw [hsum, hneg, round_of_representable false h Nat.one_pos]

theorem Measures.mul_rounded (hx : x.Measures a) (hy : y.Measures b) (h : roundUnits (a * b) one < ceiling) :
    (x.mul y).Measures (roundUnits (a * b) one) := by
  obtain ⟨_, rfl⟩ := hx
  obtain ⟨_, rfl⟩ := hy
  refine ⟨representable_roundUnits h, ?_⟩
  simp only [Binary64.mul, round, h, dif_pos]
  rfl

theorem Measures.mul (hx : x.Measures a) (hy : y.Measures b) (h : Representable c) (hc : a * b = c * one) :
    (x.mul y).Measures c := by
  have hr : roundUnits (a * b) one = c := by rw [hc, roundUnits_of_representable h one_pos]
  have hm := hx.mul_rounded hy (by rw [hr]; exact h.1)
  rwa [hr] at hm

theorem Measures.div (hx : x.Measures a) (hy : y.Measures b) (hb : 0 < b) (h : Representable c)
    (hc : a * one = c * b) : (x.div y).Measures c := by
  obtain ⟨_, rfl⟩ := hx
  obtain ⟨_, rfl⟩ := hy
  refine ⟨h, ?_⟩
  simp only [Binary64.div, Nat.ne_of_gt hb, if_false, hc]
  exact round_of_representable false h hb

theorem Measures.trunc (hx : x.Measures a) : x.trunc.Measures (a / one * one) := by
  obtain ⟨h, rfl⟩ := hx
  exact ⟨representable_whole h, rfl⟩

theorem Measures.wholePart (hx : x.Measures a) : x.wholePart = a / one := by
  obtain ⟨_, rfl⟩ := hx
  rfl

theorem Measures.isAboveZero (hx : x.Measures a) : x.isAboveZero = decide (0 < a) := by
  obtain ⟨_, rfl⟩ := hx
  simp only [Binary64.isAboveZero, Nat.pos_iff_ne_zero, Bool.not_false, Bool.true_and]
  by_cases h : a = 0 <;> simp [h]

/-- What is left without the whole part. -/
theorem Measures.sub_trunc (hx : x.Measures a) : (x.sub x.trunc).Measures (a % one) := by
  have hr : Representable (a % one) := by
    obtain ⟨h, rfl⟩ := hx
    exact representable_mod h representable_one
  have he : a - a / one * one = a % one := by
    have := Nat.div_add_mod' a one
    omega
  rw [← he] at hr ⊢
  exact hx.sub hx.trunc (Nat.div_mul_le_self a one) hr

end Positional.Binary64
