/-
  Positional.Proofs.Numeral.Format — which texts are read as numbers, and why others are not.

  A text is malformed if, without its sign, it has two points or no character but a point
  (`sides?_cases`); that is said of it before any of its digits is looked at. Otherwise its digits are
  looked at from left to right, and the first character that is no digit of the radix is invalid
  (`read_of_foreign`).

  Whatever is left is read (`read_of_digits`). Its magnitude is computed without ever subtracting:
  sums, shifts and quotients of non-negative numbers are non-negative, infinity included, as long as no
  weight is zero. So not-a-number does not come up, and the sign is the text's.
-/
import Positional.Binary64.Bits
import Positional.Proofs.Numeral.NormalForm

namespace Positional

/-! ## (1) Non-negative numbers -/

namespace Binary64

/-- A number without a sign: infinity, or so many units. -/
def NonNegative (x : Binary64) : Prop := x = infinite false ∨ ∃ units, x.Measures units

variable {x y : Binary64}

theorem nonNegative_zero : (zero false).NonNegative := Or.inr ⟨0, measures_zero⟩

theorem nonNegative_round (num den : Nat) : (round false num den).NonNegative := by
  unfold round
  split
  · exact Or.inr ⟨_, _, rfl⟩
  · exact Or.inl rfl

theorem nonNegative_ofNat (n : Nat) : (ofNat n).NonNegative := by
  rw [ofNat, ofRatio]
  exact nonNegative_round _ _

theorem nonNegative_of_isAboveZero (h : x.isAboveZero = true) : x.NonNegative := by
  cases x with
  | nan => cases h
  | infinite s =>
    cases s with
    | false => exact Or.inl rfl
    | true => cases h
  | finite s units hu =>
    cases s with
    | false => exact Or.inr ⟨units, hu, rfl⟩
    | true => cases h

theorem NonNegative.isNan_withSign (h : x.NonNegative) (negative : Bool) :
    (Numeral.withSign negative x).isNan = false := by
  rcases h with rfl | ⟨units, hu, rfl⟩ <;> cases negative <;> rfl

theorem NonNegative.add (hx : x.NonNegative) (hy : y.NonNegative) : (x.add y).NonNegative := by
  rcases hx with rfl | ⟨a, ha, rfl⟩ <;> rcases hy with rfl | ⟨b, hb, rfl⟩
  · exact Or.inl rfl
  · exact Or.inl rfl
  · exact Or.inl rfl
  · have hsum : decide ((a : Int) + b < 0) = false := decide_eq_false (by omega)
    simp only [Binary64.add, signed, Bool.false_eq_true, if_false, hsum]
    split
    · exact nonNegative_zero
    · exact nonNegative_round _ _

/-- A shift by a place: infinity stays infinite because the base is not zero. -/
theorem NonNegative.mul (hx : x.NonNegative) {b : Nat} (hy : y.Measures b) (hb : b ≠ 0) : (x.mul y).NonNegative := by
  obtain ⟨h, rfl⟩ := hy
  rcases hx with rfl | ⟨a, ha, rfl⟩
  · simp only [Binary64.mul, hb, if_false]
    exact Or.inl rfl
  · exact nonNegative_round _ _

theorem isAboveZero_of_round {num den : Nat} (h : 0 < num / den) : (round false num den).isAboveZero = true := by
  have hzero : (round false num den).isZero = false := isZero_round h
  rcases nonNegative_round num den with heq | ⟨units, hu, heq⟩
  · rw [heq]
    rfl
  · rw [heq] at hzero ⊢
    simpa [isZero, isAboveZero] using hzero

/-- Weights grow: a number above zero is not rounded to zero if multiplied by one or more. -/
theorem isAboveZero_mul (hx : x.isAboveZero = true) {b : Nat} (hy : y.Measures b) (hb : one ≤ b) :
    (x.mul y).isAboveZero = true := by
  have hb0 : b ≠ 0 := Nat.ne_of_gt (Nat.lt_of_lt_of_le one_pos hb)
  obtain ⟨h, rfl⟩ := hy
  rcases nonNegative_of_isAboveZero hx with rfl | ⟨a, hmeasures⟩
  · simp only [Binary64.mul, hb0, if_false]
    rfl
  · have ha : 0 < a := by simpa [hmeasures.isAboveZero] using hx
    obtain ⟨_, rfl⟩ := hmeasures
    refine isAboveZero_of_round (Nat.lt_of_lt_of_le ha ?_)
    rw [Nat.le_div_iff_mul_le one_pos]
    exact Nat.mul_le_mul_left a hb

/-- A digit over its weight; over an infinite one it is zero. -/
theorem NonNegative.div {a : Nat} (hx : x.Measures a) (hy : y.isAboveZero = true) : (x.div y).NonNegative := by
  obtain ⟨h, rfl⟩ := hx
  rcases nonNegative_of_isAboveZero hy with rfl | ⟨b, hmeasures⟩
  · exact nonNegative_zero
  · have hb : b ≠ 0 := by
      rw [hmeasures.isAboveZero, decide_eq_true_eq] at hy
      omega
    obtain ⟨_, rfl⟩ := hmeasures
    simp only [Binary64.div, hb, if_false]
    exact nonNegative_round _ _

/-! ## (2) The sign bit -/

/-- The bits of exponent and fraction leave the sign bit alone. -/
theorem finite_bits_lt {units : Nat} (h : units < ceiling) :
    (units.log2 - 52) * twoPow 52 + units / step units < twoPow 63 := by
  have hfraction := div_step_lt units
  have hlog : units.log2 ≤ 2097 := by
    by_cases h0 : units = 0
    · rw [h0]
      exact Nat.zero_le _
    · have hlt : units.log2 < 2098 := (log2_lt_iff h0).mpr h
      omega
  have hexponent : (units.log2 - 52) * twoPow 52 ≤ 2045 * twoPow 52 := Nat.mul_le_mul_right _ (by omega)
  have hroom : 2045 * twoPow 52 + twoPow 53 ≤ twoPow 63 := by decide
  omega

theorem testBit_signBit (negative : Bool) {n : Nat} (h : n < twoPow 63) :
    (signBit negative + n).testBit 63 = negative := by
  have hlow : n.testBit 63 = false := Nat.testBit_lt_two_pow h
  cases negative with
  | false => rwa [signBit, if_neg Bool.false_ne_true, Nat.zero_add]
  | true =>
    have hbit := Nat.testBit_two_pow_add_eq n 63
    rwa [hlow] at hbit

theorem NonNegative.testBit_toBits (h : x.NonNegative) (negative : Bool) :
    (Numeral.withSign negative x).toBits.testBit 63 = negative := by
  rcases h with rfl | ⟨units, hu, rfl⟩
  · cases negative <;> exact testBit_signBit _ (by decide)
  · cases negative <;> exact testBit_signBit _ (finite_bits_lt hu.1)

end Binary64

namespace Numeral

open Binary64

variable {r : Radix}

/-! ## (3) The value of digits -/

theorem nonNegative_wholeValue (ds : List Nat) : (wholeValue r ds).NonNegative := by
  induction ds using List.reverseRecOn with
  | nil => exact nonNegative_zero
  | append_singleton ds d ih =>
    have hbase : r.base * one ≠ 0 := Nat.ne_of_gt (Nat.mul_pos r.base_pos Binary64.one_pos)
    rw [wholeValue_concat]
    exact (ih.mul (measures_ofNat (representable_base r)) hbase).add (nonNegative_ofNat d)

theorem nonNegative_fractionSum {ds : List Nat} (hd : ∀ d ∈ ds, d < r.base) {weight sum : Binary64}
    (hweight : weight.isAboveZero = true) (hsum : sum.NonNegative) : (fractionSum r ds weight sum).NonNegative := by
  induction ds generalizing weight sum with
  | nil => exact hsum
  | cons d ds ih =>
    rw [List.forall_mem_cons] at hd
    have hbase : one ≤ r.base * one := Nat.le_mul_of_pos_left one r.base_pos
    exact ih hd.2 (isAboveZero_mul hweight (measures_ofNat (representable_base r)) hbase)
      (hsum.add (NonNegative.div (measures_digit hd.1) hweight))

theorem nonNegative_fractionValue {ds : List Nat} (hd : ∀ d ∈ ds, d < r.base) : (fractionValue r ds).NonNegative := by
  refine nonNegative_fractionSum hd ?_ nonNegative_zero
  rw [(measures_ofNat (representable_base r)).isAboveZero, decide_eq_true_eq]
  exact Nat.mul_pos r.base_pos Binary64.one_pos

end Numeral

/-! ## (4) The text -/

/-- The symbols of the digits of a radix, letters in either case. -/
def Radix.symbols (r : Radix) : Text :=
  "0123456789ABCDEF".toList.take r.base ++ "0123456789abcdef".toList.take r.base

namespace Radix

variable {r : Radix}

/-- Only ASCII characters are symbols or read as digits, and for these there is a table. -/
theorem mem_symbols_iff {x : Char} : x ∈ r.symbols ↔ ∃ d, r.readDigit x = .ok d := by
  have table : ∀ n : Fin 128, Char.ofNat n ∈ r.symbols ↔ (r.readDigit (Char.ofNat n)).isOk = true := by
    cases r <;> decide +kernel
  have hascii : r.symbols.all (·.toNat < 128) = true := by
    cases r <;> decide +kernel
  constructor
  · intro hx
    have hok := (table ⟨x.toNat, of_decide_eq_true (List.all_eq_true.mp hascii x hx)⟩).mp (by rwa [Char.ofNat_toNat])
    rw [Char.ofNat_toNat] at hok
    cases hread : r.readDigit x with
    | ok d => exact ⟨d, rfl⟩
    | error e =>
      rw [hread] at hok
      cases hok
  · intro ⟨d, hd⟩
    have hx := (table ⟨x.toNat, (Digit.of_value? (readDigit_eq_ok.mp hd).1).1⟩).mpr (by rw [Char.ofNat_toNat, hd]; rfl)
    rwa [Char.ofNat_toNat] at hx

theorem readDigit_of_notMem {x : Char} (h : x ∉ r.symbols) : r.readDigit x = .error (.invalidDigit x r.base) := by
  rw [mem_symbols_iff, not_exists] at h
  unfold readDigit at h ⊢
  split
  · rename_i d hd
    split
    · rename_i hlt
      simp [hd, hlt] at h
    · rfl
  · rfl

/-- A character that is neither a digit nor a point. -/
def isForeign (r : Radix) (x : Char) : Bool := x ≠ '.' ∧ x ∉ r.symbols

/-- Digits are looked at from left to right. -/
theorem mapM_readDigit_find? {t : Text} (h : '.' ∉ t) :
    match t.find? r.isForeign with
    | some x => t.mapM r.readDigit = .error (.invalidDigit x r.base)
    | none => ∃ ds, t.mapM r.readDigit = .ok ds := by
  induction t with
  | nil => exact ⟨[], rfl⟩
  | cons x t ih =>
    rw [List.mem_cons, not_or] at h
    have ih := ih h.2
    by_cases hx : x ∈ r.symbols
    · obtain ⟨d, hd⟩ := mem_symbols_iff.mp hx
      have hdigit : ¬ r.isForeign x = true := by simp [isForeign, hx]
      rw [List.find?_cons_of_neg hdigit, List.mapM_cons, hd]
      cases hfind : t.find? r.isForeign with
      | some y =>
        rw [hfind] at ih
        exact bind_eq_error.mpr (Or.inr ⟨d, rfl, bind_eq_error.mpr (Or.inl ih)⟩)
      | none =>
        rw [hfind] at ih
        obtain ⟨ds, hds⟩ := ih
        exact ⟨d :: ds, by rw [hds]; rfl⟩
    · have hforeign : r.isForeign x = true := by simp [isForeign, hx, Ne.symm h.1]
      rw [List.find?_cons_of_pos hforeign, List.mapM_cons, readDigit_of_notMem hx]
      rfl

end Radix

namespace Numeral

variable {r : Radix}

/-- Two points, or nothing but one at most. -/
def Malformed (unsigned : Text) : Prop := 2 ≤ unsigned.count '.' ∨ unsigned = [] ∨ unsigned = ['.']

theorem sides?_points {whole fraction : Text} (hw : '.' ∉ whole) (hf : '.' ∉ fraction) (more : Text) :
    sides? (whole ++ '.' :: (fraction ++ '.' :: more)) = none := by
  obtain ⟨piece, pieces, hpieces⟩ := List.exists_cons_of_ne_nil (List.splitOnP_ne_nil (· == '.') more)
  rw [sides?, splitOnP_point hw, splitOnP_point hf, hpieces]

/-- By the points: none, one, and two or more. -/
theorem sides?_cases (unsigned : Text) : (Malformed unsigned ∧ sides? unsigned = none) ∨
    (¬ Malformed unsigned ∧ ∃ whole fraction, sides? unsigned = some (whole, fraction) ∧
      '.' ∉ whole ∧ '.' ∉ fraction ∧
      (unsigned = whole ∧ fraction = [] ∨ unsigned = whole ++ '.' :: fraction)) := by
  by_cases hpoint : '.' ∈ unsigned
  · obtain ⟨whole, rest, rfl, hwhole⟩ := List.eq_append_cons_of_mem hpoint
    have hcount : (whole ++ '.' :: rest).count '.' = rest.count '.' + 1 := by
      rw [List.count_append, List.count_eq_zero.mpr hwhole, List.count_cons_self, Nat.zero_add]
    by_cases hmore : '.' ∈ rest
    · have htwo : 0 < rest.count '.' := List.count_pos_iff.mpr hmore
      obtain ⟨fraction, more, rfl, hfraction⟩ := List.eq_append_cons_of_mem hmore
      exact Or.inl ⟨Or.inl (by omega), sides?_points hwhole hfraction more⟩
    · have hnone : rest.count '.' = 0 := List.count_eq_zero.mpr hmore
      have hsides := sides?_point hwhole hmore
      by_cases hempty : whole = [] ∧ rest = []
      · obtain ⟨rfl, rfl⟩ := hempty
        exact Or.inl ⟨Or.inr (Or.inr rfl), hsides⟩
      · refine Or.inr ⟨?_, whole, rest, ?_, hwhole, hmore, Or.inr rfl⟩
        · rintro (htwo | hnil | hsingle)
          · omega
          · exact List.append_ne_nil_of_right_ne_nil _ (List.cons_ne_nil _ _) hnil
          · exact hempty (by simpa [List.append_eq_singleton_iff] using hsingle)
        · rw [hsides, if_neg (by simpa using hempty)]
  · have hnone : unsigned.count '.' = 0 := List.count_eq_zero.mpr hpoint
    have hsides := sides?_of_notMem hpoint
    by_cases hempty : unsigned = []
    · subst hempty
      exact Or.inl ⟨Or.inr (Or.inl rfl), hsides⟩
    · refine Or.inr ⟨?_, unsigned, [], ?_, hpoint, List.not_mem_nil, Or.inl ⟨rfl, rfl⟩⟩
      · rintro (htwo | hnil | rfl)
        · omega
        · exact hempty hnil
        · exact hpoint (List.mem_singleton.mpr rfl)
      · rw [hsides, if_neg (by simpa using hempty)]

/-! ## (5) What is read -/

theorem splitSign_eq (t : Text) : splitSign t = (t.head? == some '-', if t.head? = some '-' then t.tail else t) := by
  unfold splitSign
  split
  · rfl
  · rename_i hsign
    have hhead : t.head? ≠ some '-' := fun h => hsign t.tail (List.eq_cons_of_mem_head? h)
    rw [if_neg hhead, beq_eq_false_iff_ne.mpr hhead]

/-- Characters are looked at on the left of the point first. -/
theorem find?_sides {unsigned whole fraction : Text}
    (h : unsigned = whole ∧ fraction = [] ∨ unsigned = whole ++ '.' :: fraction) :
    unsigned.find? r.isForeign = (whole.find? r.isForeign).or (fraction.find? r.isForeign) := by
  rcases h with ⟨rfl, rfl⟩ | rfl
  · rw [List.find?_nil, Option.or_none]
  · rw [List.find?_append, List.find?_cons_of_neg (by simp [Radix.isForeign])]

section Sides

variable {t whole fraction : Text} (hsides : sides? (splitSign t).2 = some (whole, fraction)) (hwhole : '.' ∉ whole)
  (hfraction : '.' ∉ fraction)

include hsides

theorem read_of_sides : read r t = (do
    let ds ← whole.mapM r.readDigit
    let fs ← fraction.mapM r.readDigit
    return withSign (splitSign t).1 ((wholeValue r ds).add (fractionValue r fs))) := by
  simp only [read, hsides]
  rfl

include hwhole hfraction

theorem read_of_foreign {x : Char} (h : (whole.find? r.isForeign).or (fraction.find? r.isForeign) = some x) :
    read r t = .error (.invalidDigit x r.base) := by
  have hleft := Radix.mapM_readDigit_find? (r := r) hwhole
  have hright := Radix.mapM_readDigit_find? (r := r) hfraction
  rw [read_of_sides hsides]
  cases hw : whole.find? r.isForeign with
  | some y =>
    rw [hw, Option.some_or, Option.some.injEq] at h
    rw [hw] at hleft
    exact bind_eq_error.mpr (Or.inl (h ▸ hleft))
  | none =>
    rw [hw, Option.none_or] at h
    rw [hw] at hleft
    rw [h] at hright
    obtain ⟨ds, hds⟩ := hleft
    exact bind_eq_error.mpr (Or.inr ⟨ds, hds, bind_eq_error.mpr (Or.inl hright)⟩)

theorem read_of_digits (h : (whole.find? r.isForeign).or (fraction.find? r.isForeign) = none) :
    ∃ v, read r t = .ok v ∧ v.isNan = false ∧ v.toBits.testBit 63 = (splitSign t).1 := by
  have hleft := Radix.mapM_readDigit_find? (r := r) hwhole
  have hright := Radix.mapM_readDigit_find? (r := r) hfraction
  rw [Option.or_eq_none_iff] at h
  rw [h.1] at hleft
  rw [h.2] at hright
  obtain ⟨ds, hds⟩ := hleft
  obtain ⟨fs, hfs⟩ := hright
  have hvalue : ((wholeValue r ds).add (fractionValue r fs)).NonNegative :=
    (nonNegative_wholeValue ds).add (nonNegative_fractionValue (Radix.lt_base_of_mapM_readDigit hfs))
  refine ⟨_, ?_, hvalue.isNan_withSign _, hvalue.testBit_toBits _⟩
  rw [read_of_sides hsides, hds, hfs]
  rfl

end Sides

/-- A text that is not malformed is read, or its leftmost foreign character is invalid. What is read is a number with
the sign of the text, however long its digits are. -/
theorem read_accepts_its_format (r : Radix) (t : Text) :
    let unsigned := if t.head? = some '-' then t.tail else t
    (Malformed unsigned → read r t = .error (.malformed t)) ∧
    (¬ Malformed unsigned →
      match unsigned.find? fun x => x ≠ '.' ∧ x ∉ r.symbols with
      | some x => read r t = .error (.invalidDigit x r.base)
      | none => ∃ v, read r t = .ok v ∧ v.isNan = false ∧ v.toBits.testBit 63 = (t.head? == some '-')) := by
  intro unsigned
  have hsign : (splitSign t).1 = (t.head? == some '-') := congrArg Prod.fst (splitSign_eq t)
  have hunsigned : (splitSign t).2 = unsigned := congrArg Prod.snd (splitSign_eq t)
  rcases sides?_cases unsigned with
    ⟨hmalformed, hsides⟩ | ⟨hformed, whole, fraction, hsides, hwhole, hfraction, hjoin⟩
  · refine ⟨fun _ => ?_, fun h => absurd hmalformed h⟩
    rw [← hunsigned] at hsides
    simp only [read, hsides]
  · refine ⟨fun h => absurd h hformed, fun _ => ?_⟩
    change match unsigned.find? r.isForeign with
      | some x => read r t = .error (.invalidDigit x r.base)
      | none => ∃ v, read r t = .ok v ∧ v.isNan = false ∧ v.toBits.testBit 63 = (t.head? == some '-')
    rw [← hunsigned] at hsides
    rw [find?_sides hjoin]
    cases hfind : (whole.find? r.isForeign).or (fraction.find? r.isForeign) with
    | some x => exact read_of_foreign hsides hwhole hfraction hfind
    | none =>
      obtain ⟨v, hv, hnan, hbit⟩ := read_of_digits hsides hwhole hfraction hfind
      exact ⟨v, hv, hnan, hbit.trans hsign⟩

end Numeral

end Positional
