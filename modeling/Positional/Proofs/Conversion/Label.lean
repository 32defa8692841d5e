/-
  Positional.Proofs.Conversion.Label — what a label keeps of a numeral.

  A label is read from its end. Subscript digits are no parentheses, so the last `)` is the one that closes the numeral,
  whatever stands in the numeral (`cutAtLast?_labelled`). What is cut off there are the subscript digits of the base, which
  are its decimal ones in other glyphs (`map_plainDigit_subscript`), and before it stands the numeral in upper case. So
  two labels are the same exactly if bases and upper cases are (`labels_lose_only_letter_case`). Digits of
  converted numbers are upper case from the start and come out of their label as they were.
-/
import Mathlib.Data.Nat.Log
import Positional.Proofs.Conversion.Row

namespace Positional

/-! ## (1) Cuts at the last of a character -/

namespace Text

/-- Cuts at the last `x`; the `x` itself is in neither half. -/
def cutAtLast? (x : Char) (t : Text) : Option (Text × Text) :=
  (cutAt? x t.reverse).map fun (after, before) => (before.reverse, after.reverse)

theorem cutAtLast?_append {x : Char} {after : Text} (h : x ∉ after) (before : Text) :
    cutAtLast? x (before ++ x :: after) = some (before, after) := by
  have hreverse : (before ++ x :: after).reverse = after.reverse ++ x :: before.reverse := by simp
  rw [cutAtLast?, hreverse, cutAt?_append (fun hm => h (List.mem_reverse.mp hm)), Option.map_some]
  simp only [List.reverse_reverse]

/-- What stands between the first `(` and the last `)`. -/
def inParentheses? (t : Text) : Option Text := do
  let (_, behind) ← cutAt? '(' t
  let (inner, _) ← cutAtLast? ')' behind
  return inner

/-! ## (2) Decimal numerals -/

theorem isDigit_of_mem_ofNat {n : Nat} {x : Char} (h : x ∈ ofNat n) : x.isDigit = true :=
  Nat.isDigit_of_mem_toDigits (by decide) (by decide) h

theorem decimalValue_ofNat (n : Nat) : (ofNat n).decimalValue = n := by
  have h : Nat.ofDigitChars 10 (ofNat n) 0 = n := Nat.ofDigitChars_ten_toDigits
  rw [Nat.ofDigitChars_eq_foldl] at h
  simpa only [decimalValue, Nat.mul_comm] using h

theorem ofNat_injective {m n : Nat} (h : ofNat m = ofNat n) : m = n := by
  rw [← decimalValue_ofNat m, h, decimalValue_ofNat]

theorem length_ofNat (n : Nat) : (ofNat n).length = Nat.log 10 n + 1 := by
  refine eq_of_forall_ge_iff fun k => ?_
  cases k with
  | zero =>
    have : 0 < (ofNat n).length := Nat.length_toDigits_pos
    omega
  | succ k =>
    rw [ofNat, Nat.length_toDigits_le_iff (by decide) (Nat.succ_pos k), Nat.add_le_add_iff_right]
    by_cases hn : n = 0
    · subst hn
      simp
    · rw [← Nat.log_lt_iff_lt_pow (by decide) hn, Nat.lt_succ_iff]

/-- Only the numeral of zero begins with a zero. -/
theorem head?_ofNat {n : Nat} (h : (ofNat n).head? = some '0') : n = 0 := by
  induction n using Nat.base_induction 10 (by decide) with
  | single m hm =>
    rw [ofNat, Nat.toDigits_of_lt_base hm, List.head?_cons, Option.some_inj] at h
    exact Nat.digitChar_eq_zero.mp h
  | digit m k hk hm ih =>
    rw [ofNat, ← Nat.toDigits_append_toDigits (by decide) hm hk, List.head?_append_of_ne_nil _ Nat.toDigits_ne_nil] at h
    exact absurd (ih h) (Nat.pos_iff_ne_zero.mp hm)

end Text

/-! ## (3) Subscript digits -/

namespace Numeral

open Text

def subscriptDigits : List Char := ['₀', '₁', '₂', '₃', '₄', '₅', '₆', '₇', '₈', '₉']

/-- The digit that a glyph in subscript stands for. -/
def plainDigit (glyph : Char) : Char := Char.ofNat ('0'.toNat + subscriptDigits.idxOf glyph)

theorem subscriptDigit_cases {x : Char} (h : x.isDigit = true) :
    subscriptDigit x ∈ subscriptDigits ∧ plainDigit (subscriptDigit x) = x := by
  have table : ∀ d : Fin 10, subscriptDigit (Char.ofNat ('0'.toNat + d)) ∈ subscriptDigits ∧
      plainDigit (subscriptDigit (Char.ofNat ('0'.toNat + d))) = Char.ofNat ('0'.toNat + d) := by
    decide
  obtain ⟨hlow, hhigh⟩ := isDigit_iff.mp h
  have hx := table ⟨x.toNat - 48, by omega⟩
  have hsum : '0'.toNat + (x.toNat - 48) = x.toNat := Nat.add_sub_of_le hlow
  rwa [hsum, Char.ofNat_toNat] at hx

theorem mem_subscript {n : Nat} {glyph : Char} (h : glyph ∈ subscript n) : glyph ∈ subscriptDigits := by
  obtain ⟨x, hx, rfl⟩ := List.mem_map.mp h
  exact (subscriptDigit_cases (isDigit_of_mem_ofNat hx)).1

theorem closing_notMem_subscript (n : Nat) : ')' ∉ subscript n := fun hm => absurd (mem_subscript hm) (by decide)

theorem map_plainDigit_subscript (n : Nat) : (subscript n).map plainDigit = ofNat n := by
  rw [subscript, List.map_map]
  refine (List.map_congr_left fun x hx => ?_).trans (List.map_id _)
  exact (subscriptDigit_cases (isDigit_of_mem_ofNat hx)).2

theorem subscript_injective {m n : Nat} (h : subscript m = subscript n) : m = n := by
  have hplain := congrArg (List.map plainDigit) h
  rw [map_plainDigit_subscript, map_plainDigit_subscript] at hplain
  exact ofNat_injective hplain

theorem head?_subscript {n : Nat} (h : (subscript n).head? = some '₀') : n = 0 := by
  have hplain := congrArg (Option.map plainDigit) h
  rw [← List.head?_map, map_plainDigit_subscript] at hplain
  exact head?_ofNat hplain

/-! ## (4) Labels -/

theorem cutAtLast?_labelled (digits : Text) (base : Nat) :
    cutAtLast? ')' (labelled digits base) = some ('(' :: digits.upperCase, subscript base) :=
  cutAtLast?_append (closing_notMem_subscript base) _

theorem labelled_eq_iff {d₁ d₂ : Text} {b₁ b₂ : Nat} :
    labelled d₁ b₁ = labelled d₂ b₂ ↔ b₁ = b₂ ∧ d₁.upperCase = d₂.upperCase := by
  constructor
  · intro h
    have hcut := congrArg (cutAtLast? ')') h
    rw [cutAtLast?_labelled, cutAtLast?_labelled, Option.some_inj, Prod.mk.injEq] at hcut
    exact ⟨subscript_injective hcut.2, (List.cons.inj hcut.1).2⟩
  · intro ⟨hbase, hupper⟩
    rw [labelled, labelled, hbase, hupper]

theorem inParentheses?_labelled (digits : Text) (base : Nat) :
    inParentheses? (labelled digits base) = some digits.upperCase := by
  have hopening : cutAt? '(' (labelled digits base) = some ([], digits.upperCase ++ ')' :: subscript base) :=
    cutAt?_append (List.not_mem_nil : '(' ∉ []) _
  rw [inParentheses?, hopening]
  simp only [Option.bind_eq_bind, Option.bind_some, cutAtLast?_append (closing_notMem_subscript base)]
  rfl

/-- Labels lose nothing but the letter case: two are the same exactly if their bases and the upper cases of their numerals
are. The base stands in as many subscript digits as it has decimal ones, which give its decimal numeral back, and begins
with a zero only if it is zero. Digits that a number is converted to come back from between the parentheses as they were. -/
theorem labels_lose_only_letter_case :
    (∀ (d₁ d₂ : Text) (b₁ b₂ : Nat),
      labelled d₁ b₁ = labelled d₂ b₂ ↔ b₁ = b₂ ∧ d₁.upperCase = d₂.upperCase) ∧
    (∀ n, (∀ glyph ∈ subscript n, glyph ∈ subscriptDigits) ∧ (subscript n).length = Nat.log 10 n + 1 ∧
      ((subscript n).head? = some '₀' ↔ n = 0) ∧ (subscript n).map plainDigit = ofNat n ∧ (ofNat n).decimalValue = n) ∧
    ∀ (x : Binary64) (r : Radix) (p : Nat) (t : Text) (base : Nat), x.inRadix r p = .ok t →
      inParentheses? (labelled t base) = some t := by
  refine ⟨fun _ _ _ _ => labelled_eq_iff, fun n => ⟨fun _ => mem_subscript, ?_, ⟨head?_subscript, ?_⟩,
    map_plainDigit_subscript n, decimalValue_ofNat n⟩, fun x r p t base h => ?_⟩
  · rw [subscript, List.length_map, length_ofNat]
  · rintro rfl
    decide
  · rw [inParentheses?_labelled, Conversion.upperCase_of_inRadix h]

/-- Ten and a half in hexadecimal digits, and a numeral that is longer in upper case. -/
theorem labels_lose_only_letter_case_sharp_s :
    let x : Binary64 := .finite true (21 * twoPow 1073) (Binary64.representable_scaled (by decide) (by decide))
    x.inRadix .hexadecimal 3 = .ok "-A.8".toList ∧ labelled "-A.8".toList 20 = "(-A.8)₂₀".toList ∧
      inParentheses? "(-A.8)₂₀".toList = some "-A.8".toList ∧
      labelled "ß)₁".toList 1024 = labelled "ss)₁".toList 1024 ∧ labelled "ß".toList 1 ≠ labelled "ß)₁".toList 1 ∧
      (subscript 1024).map plainDigit = "1024".toList := by
  intro x
  have hx : x.inRadix .hexadecimal 3 = .ok "-A.8".toList := by
    have hwhole : 21 * twoPow 1073 / Binary64.one = 10 := by decide +kernel
    rw [Binary64.inRadix_finite, if_neg (by decide +kernel), hwhole, if_neg (by decide), digits_eq (by decide)]
    decide +kernel
  have hlabel : labelled "-A.8".toList 20 = "(-A.8)₂₀".toList := by decide +kernel
  obtain ⟨hsame, hsubscript, hinner⟩ := labels_lose_only_letter_case
  refine ⟨hx, hlabel, ?_, (hsame _ _ _ _).mpr ⟨rfl, by decide +kernel⟩, fun h => ?_, (hsubscript 1024).2.2.2.1⟩
  · rw [← hlabel]
    exact hinner x .hexadecimal 3 _ 20 hx
  · exact absurd ((hsame _ _ _ _).mp h).2 (by decide +kernel)

end Numeral

end Positional
