/-
  Positional.Proofs.Conversion.Origin — what the origin radix says about input.

  Input goes one of two ways, and its characters alone say which. Hexadecimal digits, with or without
  more of them behind a point, are `Plain`; that is the test the tool makes (`isPlainNumeral_iff`).

  - Other input is an expression in every origin, so the origin says nothing about it. Its value
    does not depend on chance if there is no draw in it (`evaluate_of_randFree`).
  - Plain input is a numeral in every origin but the decimal one. It is not malformed, and its first digit
    that is too large for the origin is the one that is invalid (`read_of_plain_digits`). No
    digit is too large in hexadecimal.
-/
import Mathlib.Data.List.Find
import Positional.Proofs.Conversion
import Positional.Proofs.Expression.Chance
import Positional.Proofs.Numeral.Format

namespace Positional

/-! ## (1) Digits -/

/-- A digit that the radix does not have. -/
def Radix.isTooLarge (r : Radix) (x : Char) : Bool := (Digit.value? x).any (r.base ≤ ·)

theorem Digit.isDigit_iff {x : Char} : isDigit x = true ↔ x ∈ Radix.hexadecimal.symbols := by
  rw [Radix.mem_symbols_iff, isDigit, Option.isSome_iff_exists]
  refine exists_congr fun d => ⟨fun h => ?_, fun h => (Radix.readDigit_eq_ok.mp h).1⟩
  exact Radix.readDigit_eq_ok.mpr ⟨h, (of_value? h).2.1⟩

namespace Radix

variable {r : Radix}

theorem isForeign_of_digit {x : Char} (h : Digit.isDigit x = true) : r.isForeign x = r.isTooLarge x := by
  obtain ⟨d, hd⟩ := Option.isSome_iff_exists.mp h
  have hpoint : x ≠ '.' := by
    rintro rfl
    cases h
  have hsymbol : x ∈ r.symbols ↔ d < r.base := by
    rw [mem_symbols_iff]
    simp only [readDigit_eq_ok, hd, Option.some.injEq, exists_eq_left']
  simp [isForeign, isTooLarge, hpoint, hsymbol, hd]

theorem not_isTooLarge_hexadecimal (x : Char) : hexadecimal.isTooLarge x = false := by
  unfold isTooLarge
  cases h : Digit.value? x with
  | none => rfl
  | some d => exact decide_eq_false (Nat.not_le.mpr (Digit.of_value? h).2.1)

end Radix

namespace Conversion

open Numeral

/-! ## (2) Plain input -/

/-- Hexadecimal digits in either letter case, at least one. -/
def HexDigits (t : Text) : Prop := t ≠ [] ∧ ∀ x ∈ t, x ∈ Radix.hexadecimal.symbols

/-- Digits, or digits on both sides of a point. -/
def Plain (t : Text) : Prop :=
  HexDigits t ∨ ∃ whole fraction, HexDigits whole ∧ HexDigits fraction ∧ t = whole ++ '.' :: fraction

theorem isDigitRun_iff {t : Text} : isDigitRun t = true ↔ HexDigits t := by
  rw [isDigitRun, Bool.and_eq_true, List.all_eq_true, HexDigits]
  simp only [Digit.isDigit_iff, Bool.not_eq_true', List.isEmpty_eq_false_iff]

theorem HexDigits.notMem_point {t : Text} (h : HexDigits t) : '.' ∉ t := fun hx =>
  absurd (h.2 '.' hx) (by decide)

/-- The test on input cuts it at its first point. -/
theorem isPlainNumeral_iff {t : Text} : isPlainNumeral t = true ↔ Plain t := by
  constructor
  · intro h
    unfold isPlainNumeral at h
    split at h
    · rename_i whole fraction hcut
      rw [Bool.and_eq_true, isDigitRun_iff, isDigitRun_iff] at h
      exact Or.inr ⟨whole, fraction, h.1, h.2, (Text.cutAt?_eq_some hcut).1⟩
    · exact Or.inl (isDigitRun_iff.mp h)
  · rintro (h | ⟨whole, fraction, hwhole, hfraction, rfl⟩)
    · rw [isPlainNumeral, Text.cutAt?_eq_none h.notMem_point]
      exact isDigitRun_iff.mpr h
    · rw [isPlainNumeral, Text.cutAt?_append hwhole.notMem_point]
      exact Bool.and_eq_true_iff.mpr ⟨isDigitRun_iff.mpr hwhole, isDigitRun_iff.mpr hfraction⟩

/-- Plain input is an unsigned numeral. -/
theorem Plain.spelled {t : Text} (h : Plain t) : ∃ whole fraction, t = spelling false whole fraction ∧ whole ≠ [] ∧
    (∀ x ∈ whole, Digit.isDigit x = true) ∧ ∀ x ∈ fraction, Digit.isDigit x = true := by
  rcases h with ⟨hne, hdigits⟩ | ⟨whole, fraction, ⟨hne, hwhole⟩, ⟨hne', hfraction⟩, rfl⟩
  · exact ⟨t, [], by simp [spelling], hne, fun x hx => Digit.isDigit_iff.mpr (hdigits x hx), fun x hx => nomatch hx⟩
  · exact ⟨whole, fraction, by simp [spelling, hne'], hne, fun x hx => Digit.isDigit_iff.mpr (hwhole x hx),
      fun x hx => Digit.isDigit_iff.mpr (hfraction x hx)⟩

/-- All that can be wrong with plain input is a digit that is too large. -/
theorem read_of_plain_digits (r : Radix) {t : Text} (h : Plain t) :
    match t.find? r.isTooLarge with
    | some x => Numeral.read r t = .error (.invalidDigit x r.base)
    | none => ∃ y, Numeral.read r t = .ok y := by
  obtain ⟨whole, fraction, rfl, hne, hwhole, hfraction⟩ := h.spelled
  have hsides : sides? (splitSign (spelling false whole fraction)).2 = some (whole, fraction) := by
    rw [splitSign_spelling hne hwhole]
    exact sides?_spelling hne hwhole hfraction
  have hpoint : '.' ∉ whole := Digit.notMem_of_isDigit hwhole rfl
  have hpoint' : '.' ∉ fraction := Digit.notMem_of_isDigit hfraction rfl
  have hjoin : spelling false whole fraction = whole ∧ fraction = [] ∨
      spelling false whole fraction = whole ++ '.' :: fraction := by
    cases fraction <;> simp [spelling]
  have hchars : ∀ x ∈ spelling false whole fraction, r.isTooLarge x = r.isForeign x := by
    intro x hx
    have hdigit : Digit.isDigit x = true ∨ x = '.' := by
      rcases hjoin with ⟨he, _⟩ | he
      · exact Or.inl (hwhole x (he ▸ hx))
      · rw [he, List.mem_append, List.mem_cons] at hx
        rcases hx with hx | hx | hx
        · exact Or.inl (hwhole x hx)
        · exact Or.inr hx
        · exact Or.inl (hfraction x hx)
    rcases hdigit with hx | rfl
    · exact (Radix.isForeign_of_digit hx).symm
    · rfl
  rw [List.find?_congr hchars, find?_sides hjoin]
  cases hforeign : (whole.find? r.isForeign).or (fraction.find? r.isForeign) with
  | some x => exact read_of_foreign hsides hpoint hpoint' hforeign
  | none =>
    obtain ⟨y, hy, _⟩ := read_of_digits hsides hpoint hpoint' hforeign
    exact ⟨y, hy⟩

/-! ## (3) The origin -/

section

variable (s : Setting) (language : Language) {o : Radix} {t : Text} (h : Plain t.trim)

include h

theorem read_of_isTooLarge (ho : o ≠ .decimal) :
    match t.trim.find? o.isTooLarge with
    | some x => read s language o t = .error (.numeral (.invalidDigit x o.base))
    | none => ∃ y, read s language o t = .ok y := by
  have hread := read_of_plain_digits o h
  rw [read_of_plain s language ho (isPlainNumeral_iff.mpr h)]
  cases hfind : t.trim.find? o.isTooLarge with
  | some x =>
    rw [hfind] at hread
    exact mapError_eq_error.mpr ⟨_, hread, rfl⟩
  | none =>
    rw [hfind] at hread
    obtain ⟨y, hy⟩ := hread
    exact ⟨y, mapError_eq_ok.mpr hy⟩

theorem read_of_hexadecimal : ∃ y, read s language .hexadecimal t = .ok y := by
  have hnone : t.trim.find? Radix.hexadecimal.isTooLarge = none :=
    List.find?_eq_none.mpr fun x _ => by rw [Radix.not_isTooLarge_hexadecimal]; exact Bool.false_ne_true
  have hread := read_of_isTooLarge s language h (o := .hexadecimal) (by decide)
  rwa [hnone] at hread

end

/-- The origin matters for plain input only. This is never refused in hexadecimal, and in binary and octal only for
its leftmost digit that is too large. -/
theorem origin_matters_for_plain_digits (language : Language) {s s' : Setting} (hs : s.elementary = s'.elementary)
    {t : Text} (hr : RandFree t) :
    (¬ Plain t.trim → ∀ o o', read s language o t = read s' language o' t) ∧
    (Plain t.trim → (∃ y, read s language .hexadecimal t = .ok y) ∧ ∀ o, o = .binary ∨ o = .octal →
      match t.trim.find? o.isTooLarge with
      | some x => read s language o t = .error (.numeral (.invalidDigit x o.base))
      | none => ∃ y, read s language o t = .ok y) := by
  refine ⟨fun hplain o o' => ?_, fun hplain => ⟨read_of_hexadecimal s language hplain, fun o ho => ?_⟩⟩
  · have htest : isPlainNumeral t.trim = false := by
      rwa [← Bool.not_eq_true, isPlainNumeral_iff]
    have hvalue : Expression.evaluate s language t.trim = Expression.evaluate s' language t.trim :=
      Expression.evaluate_of_randFree hs language (hr.of_part (Expression.trim_part t))
    rw [read_of_expression s language (Or.inr htest), read_of_expression s' language (Or.inr htest), hvalue]
  · refine read_of_isTooLarge s language hplain ?_
    rcases ho with rfl | rfl <;> decide

/-- Plain digits around a point and blanks around them; and a power, whose origin does not matter. -/
theorem origin_matters_for_plain_digits_1f9_8 :
    let s : Setting := ⟨⟨fun _ x => x, fun x _ => x⟩, fun _ => ⟨0, twoPow_pos 53⟩⟩
    let s' : Setting := ⟨s.elementary, fun _ => ⟨1, by decide⟩⟩
    let t : Text := " 1f9.8\t".toList
    let u : Text := "2^4.".toList
    s.elementary = s'.elementary ∧ RandFree t ∧ RandFree u ∧ Plain t.trim ∧ ¬ Plain u.trim ∧
      (∃ y, read s .radixTool .hexadecimal t = .ok y) ∧
      read s .radixTool .octal t = .error (.numeral (.invalidDigit 'f' 8)) ∧
      read s .radixTool .binary u = read s' .radixTool .hexadecimal u := by
  intro s s' t u
  have hs : s.elementary = s'.elementary := rfl
  have ht : RandFree t := randFree_of_letters (by decide)
  have hu : RandFree u := randFree_of_letters (by decide)
  have hplain : Plain t.trim := isPlainNumeral_iff.mp (by decide)
  have hother : ¬ Plain u.trim := by
    rw [← isPlainNumeral_iff]
    decide
  obtain ⟨-, hdigits⟩ := origin_matters_for_plain_digits .radixTool hs ht
  obtain ⟨hexpression, -⟩ := origin_matters_for_plain_digits .radixTool hs hu
  obtain ⟨hhexadecimal, hsmall⟩ := hdigits hplain
  have hfind : t.trim.find? Radix.octal.isTooLarge = some 'f' := by decide
  have hoctal := hsmall .octal (Or.inr rfl)
  rw [hfind] at hoctal
  exact ⟨hs, ht, hu, hplain, hother, hhexadecimal, hoctal, hexpression hother .binary .hexadecimal⟩

end Conversion

end Positional
