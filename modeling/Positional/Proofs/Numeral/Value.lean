/-
  Positional.Proofs.Numeral.Value — the exact number that a numeral shows.

  `magnitude r t` is the rational that the digits of a text denote, its sign left aside; nothing is
  rounded here. In a radix that is a power of two a number is written so that its magnitude is shown
  up to the precision and cut off there (`magnitude_inRadix`).

  Cut-off numbers of one number are in the order of the bases: a cut at a multiple of `b` parts
  keeps at least what the cut at `b` parts keeps (`cut_le_cut`), which is less than one part too
  little and never too much (`cut_le`, `lt_cut_add`).
-/
import Positional.Proofs.Numeral.RoundTrip

namespace Positional

open Binary64

theorem Radix.base_pos_rat (r : Radix) : (0 : ℚ) < r.base := by exact_mod_cast r.base_pos

theorem Radix.number_append (r : Radix) (ds es : List Nat) :
    r.number (ds ++ es) = r.number ds * r.base ^ es.length + r.number es := by
  rw [number, List.reverse_append, Nat.ofDigits_append, List.length_reverse, number, number]
  ring

theorem Digit.filterMap_symbol {ds : List Nat} (h : ∀ d ∈ ds, d < 16) : (ds.map symbol).filterMap value? = ds := by
  induction ds with
  | nil => rfl
  | cons d ds ih =>
    rw [List.map_cons, List.filterMap_cons_some (value?_symbol (h d List.mem_cons_self)),
      ih fun e he => h e (List.mem_cons_of_mem d he)]

namespace Numeral

variable {r : Radix} {p : Nat}

/-! ## (1) The digits of a text -/

/-- The number that the digits of a text denote, its sign left aside: read as one whole number, with the point
moved back. -/
def magnitude (r : Radix) (t : Text) : ℚ := r.number (t.filterMap Digit.value?) / r.base ^ places t

section

variable {n : Numeral} (h : ∀ d ∈ n.whole ++ n.fraction, d < r.base)

include h

theorem isDigit_of_mem_symbols {x : Char} (hx : x ∈ (n.whole ++ n.fraction).map Digit.symbol) :
    Digit.isDigit x = true :=
  Radix.isDigit_of_mapM_readDigit (Radix.mapM_readDigit_symbol h) x hx

theorem point_notMem_whole : '.' ∉ n.whole.map Digit.symbol :=
  Digit.notMem_of_isDigit
    (fun _ hx => isDigit_of_mem_symbols h (List.map_subset _ (List.subset_append_left _ _) hx)) rfl

theorem places_text : places n.text = n.fraction.length := by
  rw [text_eq, places_spelling _ (point_notMem_whole h), List.length_map]

theorem filterMap_text : n.text.filterMap Digit.value? = n.whole ++ n.fraction := by
  have hlt : ∀ d ∈ n.whole ++ n.fraction, d < 16 := fun d hd => Nat.lt_of_lt_of_le (h d hd) r.base_le
  have hsign : (if n.negative then ['-'] else []).filterMap Digit.value? = [] := by
    cases n.negative <;> rfl
  have hfraction : (if n.fraction.isEmpty then [] else '.' :: n.fraction.map Digit.symbol).filterMap Digit.value? =
      n.fraction := by
    have hsymbols := Digit.filterMap_symbol fun d hd => hlt d (List.mem_append_right _ hd)
    cases hf : n.fraction with
    | nil => rfl
    | cons d fs =>
      rw [hf] at hsymbols
      rw [List.isEmpty_cons, if_neg Bool.false_ne_true, List.filterMap_cons_none (by rfl), hsymbols]
  simp only [text]
  rw [List.filterMap_append, List.filterMap_append, hsign, hfraction,
    Digit.filterMap_symbol fun d hd => hlt d (List.mem_append_left _ hd), List.nil_append]

theorem magnitude_text : magnitude r n.text = r.number (n.whole ++ n.fraction) / r.base ^ n.fraction.length := by
  rw [magnitude, filterMap_text h, places_text h]

/-- The sign, the point and the digits are all there is in a text. -/
theorem mem_text {x : Char} (hx : x ∈ n.text) : (x = '-' ∧ n.negative = true) ∨ x = '.' ∨ Digit.isDigit x = true := by
  have hdigit {ds : List Nat} (hds : ds ⊆ n.whole ++ n.fraction) (hm : x ∈ ds.map Digit.symbol) :
      Digit.isDigit x = true := isDigit_of_mem_symbols h (List.map_subset _ hds hm)
  simp only [text, List.mem_append] at hx
  rcases hx with (hx | hx) | hx
  · left
    cases hneg : n.negative with
    | true => simpa [hneg] using hx
    | false => simp [hneg] at hx
  · exact Or.inr (Or.inr (hdigit (List.subset_append_left _ _) hx))
  · right
    split at hx
    · cases hx
    · rcases List.mem_cons.mp hx with rfl | hx
      · exact Or.inl rfl
      · exact Or.inr (hdigit (List.subset_append_right _ _) hx)

theorem upperCase_text : n.text.upperCase = n.text := by
  have hsymbols {ds : List Nat} (hds : ∀ d ∈ ds, d < r.base) :
      Text.upperCase (ds.map Digit.symbol) = ds.map Digit.symbol :=
    Radix.upperCase_of_mapM_readDigit (Radix.mapM_readDigit_symbol hds)
  have happend (t u : Text) : Text.upperCase (t ++ u) = t.upperCase ++ u.upperCase := List.flatMap_append
  have hsign : Text.upperCase (if n.negative then ['-'] else []) = if n.negative then ['-'] else [] := by
    cases n.negative <;> rfl
  have hfraction : Text.upperCase (if n.fraction.isEmpty then [] else '.' :: n.fraction.map Digit.symbol) =
      if n.fraction.isEmpty then [] else '.' :: n.fraction.map Digit.symbol := by
    have hpoint (t : Text) : Text.upperCase ('.' :: t) = '.' :: t.upperCase := rfl
    cases n.fraction.isEmpty with
    | true => rfl
    | false => rw [if_neg Bool.false_ne_true, hpoint, hsymbols fun d hd => h d (List.mem_append_right _ hd)]
  simp only [text]
  rw [happend, happend, hsign, hfraction, hsymbols fun d hd => h d (List.mem_append_left _ hd)]

end

/-! ## (2) Numbers that are written -/

/-- The digits of a number that is written are digits of the radix, and its sign is that of the number. -/
theorem digits_of_ofNumber {x : Binary64} {n : Numeral} (h : ofNumber r p x = .ok n) :
    (∀ d ∈ n.whole ++ n.fraction, d < r.base) ∧ (n.negative = true ↔ x.toRat < 0) := by
  cases x with
  | nan | infinite => cases h
  | finite s u hu =>
    rw [← isBelowZero_iff _ rfl, isBelowZero]
    rw [ofNumber_finite] at h
    split at h
    · rename_i h0
      cases h
      refine ⟨fun d hd => ?_, by simp [zero, h0]⟩
      rw [List.mem_singleton.mp hd]
      exact r.base_pos
    · rename_i h0
      split at h
      · cases h
      · cases h
        exact ⟨digits_expansion_lt p hu, by simp [h0]⟩

/-- In a radix that is a power of two, all places that are allowed are exact. -/
theorem number_of_ofNumber (hr : r ≠ .decimal) {x : Binary64} {n : Numeral} (h : ofNumber r p x = .ok n) :
    (r.number (n.whole ++ n.fraction) : ℚ) / r.base ^ n.fraction.length =
      ⌊|x.toRat| * r.base ^ p⌋₊ / r.base ^ p := by
  have hbase := r.base_pos_rat
  cases x with
  | nan | infinite => cases h
  | finite s u hu =>
    have hfloor : ⌊|(finite s u hu).toRat| * r.base ^ p⌋₊ = u * r.base ^ p / one := by
      rw [abs_toRat, div_mul_eq_mul_div]
      exact_mod_cast Nat.floor_div_eq_div (K := ℚ) (u * r.base ^ p) one
    rw [hfloor]
    rw [ofNumber_finite] at h
    split at h
    · rename_i h0
      cases h
      have hzero : r.number (zero.whole ++ zero.fraction) = 0 := Radix.number_zero_cons r []
      rw [hzero, h0, Nat.zero_mul, Nat.zero_div, Nat.cast_zero, zero_div, zero_div]
    · split at h
      · cases h
      · cases h
        have hn := number_expansion hr p (representable_mod hu representable_one) (Nat.mod_lt u Binary64.one_pos)
        have hle := length_expansion_le (r := r) p (u % one)
        rw [Radix.number_append, number_digits, mul_div_one, ← hn]
        generalize expansion r p (u % one) = fs at hle
        obtain ⟨m, rfl⟩ := Nat.exists_eq_add_of_le hle
        rw [Nat.add_sub_cancel_left]
        push_cast
        field_simp
        ring

end Numeral

namespace Binary64

open Numeral

variable {r : Radix} {p : Nat} {x : Binary64}

theorem inRadix_eq_ok {t : Text} : x.inRadix r p = .ok t ↔ ∃ n, ofNumber r p x = .ok n ∧ n.text = t := by
  rw [inRadix]
  cases ofNumber r p x <;> simp [Except.map]

theorem magnitude_inRadix (hr : r ≠ .decimal) {t : Text} (h : x.inRadix r p = .ok t) :
    magnitude r t = ⌊|x.toRat| * r.base ^ p⌋₊ / r.base ^ p := by
  obtain ⟨n, hn, rfl⟩ := inRadix_eq_ok.mp h
  rw [magnitude_text (digits_of_ofNumber hn).1, number_of_ofNumber hr hn]

/-- Whether a number can be written, and why not, is a matter of the number alone. -/
theorem inRadix_error {e : NumeralError} (h : x.inRadix r p = .error e) (r' : Radix) : x.inRadix r' p = .error e := by
  cases hx : x.isFinite with
  | false => rw [inRadix_not_finite r' p hx, ← h, inRadix_not_finite r p hx]
  | true =>
    cases x with
    | nan | infinite => cases hx
    | finite s u hu =>
      rw [inRadix_finite] at h ⊢
      split at h
      · cases h
      · rename_i h0
        rw [if_neg h0]
        split at h
        · rename_i hlarge
          rw [if_pos hlarge, h]
        · cases h

end Binary64

/-! ## (3) Cuts -/

section

variable {b : ℕ} {q : ℚ}

theorem cut_le (hb : 0 < b) (hq : 0 ≤ q) : (⌊q * b⌋₊ : ℚ) / b ≤ q := by
  have hpos : (0 : ℚ) < b := by exact_mod_cast hb
  rw [div_le_iff₀ hpos]
  exact Nat.floor_le (by positivity)

theorem lt_cut_add (hb : 0 < b) : q < ⌊q * b⌋₊ / b + 1 / b := by
  have hpos : (0 : ℚ) < b := by exact_mod_cast hb
  rw [← add_div, lt_div_iff₀ hpos]
  exact Nat.lt_floor_add_one _

theorem cut_le_cut (hb : 0 < b) (hq : 0 ≤ q) {d : ℕ} (hd : 0 < d) :
    (⌊q * b⌋₊ : ℚ) / b ≤ ⌊q * (b * d : ℕ)⌋₊ / (b * d : ℕ) := by
  have hpos : (0 : ℚ) < b := by exact_mod_cast hb
  have hpos' : (0 : ℚ) < (b * d : ℕ) := by exact_mod_cast Nat.mul_pos hb hd
  have hfloor : ⌊q * b⌋₊ * d ≤ ⌊q * (b * d : ℕ)⌋₊ := by
    refine Nat.le_floor ?_
    have hle : (⌊q * b⌋₊ : ℚ) * d ≤ q * b * d :=
      mul_le_mul_of_nonneg_right (Nat.floor_le (by positivity)) (Nat.cast_nonneg d)
    calc ((⌊q * b⌋₊ * d : ℕ) : ℚ) = ⌊q * b⌋₊ * d := Nat.cast_mul _ _
      _ ≤ q * b * d := hle
      _ = q * (b * d : ℕ) := by rw [Nat.cast_mul, mul_assoc]
  rw [div_le_div_iff₀ hpos hpos']
  calc (⌊q * b⌋₊ : ℚ) * (b * d : ℕ) = (⌊q * b⌋₊ * d : ℕ) * b := by push_cast; ring
    _ ≤ ⌊q * (b * d : ℕ)⌋₊ * b := mul_le_mul_of_nonneg_right (by exact_mod_cast hfloor) hpos.le

end

end Positional
