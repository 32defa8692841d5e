/-
  Positional.Proofs.Conversion.Literals — literals of expressions and the digits of numerals.

  An expression may be a literal alone, and then its value is also that of a numeral, computed in
  another way:

  - behind `0x` stand all hexadecimal digits there are, `e` among them. They are a whole number that is
    rounded once (`evaluate_hexadecimal`), or an invalid literal from 2^64 on, which no fraction form
    makes up for (`evaluate_hexadecimal_of_le`);
  - decimal digits are a literal that is rounded once (`evaluate_digits`).

  A numeral's digits are added up in 64-bit arithmetic instead. Up to 2^53 nothing is rounded on
  either way (`literals_agree_with_digits`).
-/
import Mathlib.Data.Bool.AllAny
import Positional.Proofs.Conversion
import Positional.Proofs.Numeral.Format

namespace Positional

open Binary64 Cursor Expression Numeral

/-! ## (1) Digits -/

/-- What the symbols of a radix are read as. -/
theorem Radix.mapM_readDigit_symbols {r : Radix} {t : Text} (h : ∀ x ∈ t, x ∈ r.symbols) :
    t.mapM r.readDigit = .ok (t.filterMap Digit.value?) := by
  have hdigits : ∃ ds, t.mapM r.readDigit = .ok ds := by
    induction t with
    | nil => exact ⟨[], rfl⟩
    | cons x t ih =>
      rw [List.forall_mem_cons] at h
      obtain ⟨d, hd⟩ := mem_symbols_iff.mp h.1
      obtain ⟨ds, hds⟩ := ih h.2
      exact ⟨d :: ds, by rw [List.mapM_cons, hd, hds]; rfl⟩
  obtain ⟨ds, hds⟩ := hdigits
  rw [filterMap_of_mapM hds, hds]

theorem hexadecimalValue_of_mapM_readDigit {t : Text} {ds : List Nat}
    (h : t.mapM Radix.hexadecimal.readDigit = .ok ds) : hexadecimalValue t = Radix.hexadecimal.number ds := by
  have hfold := Radix.hexadecimal.foldl_number (fun x => (Digit.value? x).getD 0)
    ((mapM_eq_ok.mp h).imp fun x d hx => by rw [(Radix.readDigit_eq_ok.mp hx).1, Option.getD_some]) 0
  rwa [Nat.zero_mul, Nat.zero_add] at hfold

/-! ## (2) Hexadecimal literals -/

/-- A single word without a slash is in no fraction form. -/
theorem FractionForm.ofText_of_solid {t : Text} (hsolid : Text.Solid t) (hslash : '/' ∉ t)
    (hhead : t.head? ≠ some '(') : ofText t = .none := by
  have hmixed : MixedNumber.ofText? t = .none := by
    simp only [MixedNumber.ofText?, Text.words_of_solid hsolid]
  have hinner : inner? t = .none := by
    unfold inner?
    split
    · exact absurd rfl hhead
    · rfl
  rw [ofText, hmixed, hinner, Text.cutAt?_eq_none hslash]

section

variable {t : Text} {ds : List Nat} (hne : t ≠ []) (ht : t.mapM Radix.hexadecimal.readDigit = .ok ds)

include hne ht

theorem solid_hexadecimal : Text.Solid ("0x".toList ++ t) :=
  ((solid_of_digits hne (Radix.isDigit_of_mapM_readDigit ht)).cons rfl).cons rfl

/-- The digits behind `0x` are one run to the end. -/
theorem run_hexadecimal : ∃ c, Spans (Cursor.start ("0x".toList ++ t)) "0x".toList c ∧
    Run Digit.isDigit c t ⟨[], ("0x".toList ++ t).length⟩ := by
  refine ⟨⟨t, 2⟩, ⟨rfl, rfl⟩, ⟨(List.append_nil t).symm, List.length_append⟩, hne, ?_, fun x hx => nomatch hx⟩
  exact Radix.isDigit_of_mapM_readDigit ht

variable (s : Setting) (language : Language)

namespace Expression

theorem evaluate_hexadecimal (hle : Radix.hexadecimal.number ds ≤ twoPow 53) :
    ∃ h, evaluate s language ("0x".toList ++ t) = .ok (.finite false (Radix.hexadecimal.number ds * one) h) := by
  obtain ⟨h, hnumber⟩ := measures_ofNat (representable_ofNat hle)
  have hvalue := hexadecimalValue_of_mapM_readDigit ht
  have hlt : hexadecimalValue t < twoPow 64 := by
    rw [hvalue]
    exact Nat.lt_of_le_of_lt hle (twoPow_lt (by decide))
  obtain ⟨c, hmarker, hrun⟩ := run_hexadecimal hne ht
  let d : Cursor := ⟨[], ("0x".toList ++ t).length⟩
  have hend : Blank d.rest := Text.blank_nil
  have hliteral : Derives language.factorial 1 .unary (Cursor.start ("0x".toList ++ t)) _ d :=
    .plain (.hexadecimal (Gap.refl _) (Or.inl rfl) hmarker hrun hlt) fun _ => not_token_of_blank hend rfl
  have hderives := hliteral.alone (fun _ => not_token_of_blank hend rfl) fun x hx => nomatch hx
  refine ⟨h, evaluate_of_value ?_⟩
  rw [Text.trim_of_solid (solid_hexadecimal hne ht), grammarValue]
  rcases read_or_breaks hderives hend with hread | ⟨hdeep, _⟩
  · rw [hread, hvalue, hnumber]
    rfl
  · exact absurd hdeep (by decide)

theorem ofText_hexadecimal : FractionForm.ofText ("0x".toList ++ t) = .none := by
  have hslash : '/' ∉ t := Digit.notMem_of_isDigit (Radix.isDigit_of_mapM_readDigit ht) rfl
  exact FractionForm.ofText_of_solid (solid_hexadecimal hne ht) (by simp [hslash]) (by simp)

theorem atom_hexadecimal_of_le (hle : twoPow 64 ≤ Radix.hexadecimal.number ds) (size : Nat) (f : Reader) :
    (atom size f (Cursor.start ("0x".toList ++ t))).1 = .fault (.invalidNumber ("0x".toList ++ t)) := by
  obtain ⟨c, hmarker, hrun⟩ := run_hexadecimal hne ht
  have hempty : t.isEmpty = false := by simpa using hne
  have hadvance : (Cursor.start ("0x".toList ++ t)).advance 2 = c := advance_eq hmarker
  have hlt : ¬ hexadecimalValue t < twoPow 64 := by
    rw [hexadecimalValue_of_mapM_readDigit ht]
    exact Nat.not_lt.mpr hle
  rw [atom_hexadecimal (Gap.refl _) rfl]
  simp only [readHexadecimal, hadvance, takeRun_eq hrun, hempty, hlt, Bool.false_eq_true, if_false]

/-- Reading goes no further than a literal that is too large, and a literal alone is in no fraction form. -/
theorem evaluate_hexadecimal_of_le (hle : twoPow 64 ≤ Radix.hexadecimal.number ds) :
    evaluate s language ("0x".toList ++ t) = .error (.grammar (.invalidNumber ("0x".toList ++ t))) := by
  have hsolid := solid_hexadecimal hne ht
  have htrim := Text.trim_of_solid hsolid
  have hvalue : grammarValue s language (Text.trim ("0x".toList ++ t)) =
      .error (.grammar (.invalidNumber ("0x".toList ++ t))) := by
    obtain ⟨f, hstarts⟩ := exists_starts_read language.factorial hsolid.trimmed hsolid.1 (by simp) (by simp)
    rw [atom_hexadecimal_of_le hne ht hle] at hstarts
    rw [htrim]
    exact hstarts.value_error rfl
  cases hopen : language.fractions && leavesOpen (.grammar (.invalidNumber ("0x".toList ++ t))) with
  | false => exact evaluate_of_closed hvalue hopen
  | true =>
    refine evaluate_of_none hvalue hopen ?_
    rw [htrim]
    exact ofText_hexadecimal hne ht

end Expression

end

/-! ## (3) Literals and numerals -/

namespace Conversion

/-- Up to 2^53 digits have one value as a literal and as a numeral, in either letter case and with leading zeros. From
2^64 on they are no hexadecimal literal. -/
theorem literals_agree_with_digits (s : Setting) (language : Language) :
    (∀ t : Text, t ≠ [] → (∀ x ∈ t, x ∈ Radix.hexadecimal.symbols) →
      let n := Radix.hexadecimal.number (t.filterMap Digit.value?)
      (n ≤ 2 ^ 53 → ∃ y, Expression.evaluate s language ("0x".toList ++ t) = .ok y ∧
        Numeral.read .hexadecimal t = .ok y ∧ y.isFinite = true ∧ y.toRat = n) ∧
      (2 ^ 64 ≤ n → Expression.evaluate s language ("0x".toList ++ t) =
        .error (.grammar (.invalidNumber ("0x".toList ++ t))))) ∧
    ∀ t : Text, t ≠ [] → (∀ x ∈ t, x ∈ Radix.decimal.symbols) →
      let n := Radix.decimal.number (t.filterMap Digit.value?)
      n ≤ 2 ^ 53 → ∃ y, read s language .decimal t = .ok y ∧ Numeral.read .decimal t = .ok y ∧
        y.isFinite = true ∧ y.toRat = n := by
  have unsigned (t : Text) : spelling false t [] = t := by simp [spelling]
  constructor
  · intro t hne hdigits
    have ht := Radix.mapM_readDigit_symbols hdigits
    refine ⟨fun hle => ?_, fun hle => ?_⟩
    · rw [← twoPow_eq] at hle
      obtain ⟨h, hliteral⟩ := Expression.evaluate_hexadecimal hne ht s language hle
      obtain ⟨_, hnumeral⟩ := read_whole false hne ht hle
      rw [unsigned] at hnumeral
      exact ⟨_, hliteral, hnumeral, rfl, toRat_whole false h⟩
    · rw [← twoPow_eq] at hle
      exact Expression.evaluate_hexadecimal_of_le hne ht s language hle
  · intro t hne hdigits n hle
    have ht := Radix.mapM_readDigit_symbols hdigits
    have htrim : t.trim = t := Text.trim_of_solid (solid_of_digits hne (Radix.isDigit_of_mapM_readDigit ht))
    rw [← twoPow_eq] at hle
    obtain ⟨h, hliteral⟩ := Expression.evaluate_digits hne ht s language false hle
    obtain ⟨_, hnumeral⟩ := read_whole false hne ht hle
    rw [unsigned] at hliteral hnumeral
    refine ⟨_, ?_, hnumeral, rfl, toRat_whole false h⟩
    rw [read_of_expression s language (Or.inl rfl), htrim, hliteral]
    rfl

/-- Leading zeros, both letter cases and the letter `e`; sixteen zeros behind a one; and the same for decimal digits. -/
theorem literals_agree_with_digits_495 :
    let s : Setting := ⟨⟨fun _ x => x, fun x _ => x⟩, fun _ => ⟨0, twoPow_pos 53⟩⟩
    (∃ y, Expression.evaluate s .full "0x001eF".toList = .ok y ∧ Numeral.read .hexadecimal "001eF".toList = .ok y ∧
      y.isFinite = true ∧ y.toRat = 495) ∧
    Expression.evaluate s .full "0x10000000000000000".toList =
      .error (.grammar (.invalidNumber "0x10000000000000000".toList)) ∧
    ∃ y, read s .radixTool .decimal "00495".toList = .ok y ∧ Numeral.read .decimal "00495".toList = .ok y ∧
      y.isFinite = true ∧ y.toRat = 495 := by
  intro s
  obtain ⟨hhexadecimal, -⟩ := literals_agree_with_digits s .full
  obtain ⟨-, hdecimal⟩ := literals_agree_with_digits s .radixTool
  have hnumber : Radix.hexadecimal.number ("001eF".toList.filterMap Digit.value?) = 495 := by decide +kernel
  have hlarge : Radix.hexadecimal.number ("10000000000000000".toList.filterMap Digit.value?) = 2 ^ 64 := by
    decide +kernel
  have hdigits : Radix.decimal.number ("00495".toList.filterMap Digit.value?) = 495 := by decide +kernel
  have hsmall := (hhexadecimal "001eF".toList (by decide) (List.all_iff_forall_prop.mp (by decide +kernel))).1
  have hinvalid := (hhexadecimal "10000000000000000".toList (by decide)
    (List.all_iff_forall_prop.mp (by decide +kernel))).2
  have hread := hdecimal "00495".toList (by decide) (List.all_iff_forall_prop.mp (by decide +kernel))
  simp only [hnumber, hlarge, hdigits] at hsmall hinvalid hread
  exact ⟨hsmall (by decide), hinvalid (by decide), hread (by decide)⟩

end Conversion

end Positional
