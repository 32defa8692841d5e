/-
  Positional.Proofs.Text.Classes — which classes of characters exclude each other.

  A character that can start a factor is not blank (`isBlank_of_startsFactor`). Of the classes that
  it comes from, digits, names and the single symbols exclude each other
  (`isAlphabetic_of_isDigit`, `isAlphabetic_symbols`), and digits of base sixteen are among
  the characters that start a factor (`startsFactor_of_digit`).
-/
import Positional.Expression.Grammar

namespace Positional

open Expression

theorem isDigit_iff {x : Char} : x.isDigit = true ↔ 48 ≤ x.toNat ∧ x.toNat ≤ 57 := by
  simp only [Char.isDigit, Bool.and_eq_true, decide_eq_true_eq]
  exact Iff.rfl

theorem isAlpha_iff {x : Char} :
    x.isAlpha = true ↔ (65 ≤ x.toNat ∧ x.toNat ≤ 90) ∨ (97 ≤ x.toNat ∧ x.toNat ≤ 122) := by
  show (decide ('A' ≤ x ∧ x ≤ 'Z') || (decide ('a' ≤ x) && decide (x ≤ 'z'))) = true ↔ _
  simp only [Bool.or_eq_true, Bool.and_eq_true, decide_eq_true_eq]
  exact Iff.rfl

theorem isBlank_of_isDigit {x : Char} (h : x.isDigit = true) : isBlank x = false := by
  have := isDigit_iff.mp h
  simp only [isBlank, Bool.or_eq_false_iff, Bool.and_eq_false_iff, decide_eq_false_iff_not, beq_eq_false_iff_ne]
  omega

theorem isAlphabetic_of_isDigit {x : Char} (h : x.isDigit = true) : isAlphabetic x = false := by
  have hx := isDigit_iff.mp h
  rw [isAlphabetic_ascii (by omega), ← Bool.not_eq_true, isAlpha_iff]
  omega

/-- None of the single symbols of the grammar is part of a name. -/
theorem isAlphabetic_symbols :
    ∀ x ∈ ['(', ')', '√', '.', '+', '-', '*', '/', '%', '^', '!', '0'], isAlphabetic x = false := by
  have table : ['(', ')', '√', '.', '+', '-', '*', '/', '%', '^', '!', '0'].any isAlphabetic = false := by
    decide +kernel
  simpa using table

theorem isAlphabetic_of_isBlank {x : Char} (h : isBlank x = true) : isAlphabetic x = false := by
  have table : ∀ n ∈ [9, 10, 11, 12, 13, 0x20, 0x85, 0xa0, 0x1680, 0x2000, 0x2001, 0x2002, 0x2003, 0x2004, 0x2005,
      0x2006, 0x2007, 0x2008, 0x2009, 0x200a, 0x2028, 0x2029, 0x202f, 0x205f, 0x3000],
      isAlphabetic (Char.ofNat n) = false := by
    decide +kernel
  rw [← Char.ofNat_toNat x]
  refine table x.toNat ?_
  simp only [isBlank, Bool.or_eq_true, Bool.and_eq_true, decide_eq_true_eq, beq_iff_eq] at h
  simp only [List.mem_cons, List.not_mem_nil, or_false]
  omega

theorem isBlank_of_startsFactor {x : Char} (h : startsFactor x = true) : isBlank x = false := by
  simp only [startsFactor, Bool.or_eq_true, beq_iff_eq] at h
  rcases h with (((h | rfl) | rfl) | rfl) | h
  · exact isBlank_of_isDigit h
  · rfl
  · rfl
  · rfl
  · cases hb : isBlank x with
    | false => rfl
    | true => rw [isAlphabetic_of_isBlank hb] at h; cases h

theorem startsFactor_of_isAlphabetic {x : Char} (h : isAlphabetic x = true) : startsFactor x = true := by
  simp [startsFactor, h]

theorem startsFactor_of_digit {x : Char} (h : Digit.isDigit x = true) : startsFactor x = true := by
  unfold Digit.isDigit Digit.value? at h
  split at h
  · rename_i hd
    rw [Bool.and_eq_true, decide_eq_true_eq, decide_eq_true_eq] at hd
    have : x.isDigit = true := isDigit_iff.mpr hd
    simp [startsFactor, this]
  split at h
  · rename_i hl
    rw [Bool.and_eq_true, decide_eq_true_eq, decide_eq_true_eq] at hl
    have h1 : 97 ≤ x.toNat := hl.1
    have h2 : x.toNat ≤ 102 := hl.2
    exact startsFactor_of_isAlphabetic (isAlphabetic_of_isAlpha (isAlpha_iff.mpr (by omega)))
  split at h
  · rename_i hl
    rw [Bool.and_eq_true, decide_eq_true_eq, decide_eq_true_eq] at hl
    have h1 : 65 ≤ x.toNat := hl.1
    have h2 : x.toNat ≤ 70 := hl.2
    exact startsFactor_of_isAlphabetic (isAlphabetic_of_isAlpha (isAlpha_iff.mpr (by omega)))
  · cases h

end Positional
