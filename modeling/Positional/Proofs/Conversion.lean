/-
  Positional.Proofs.Conversion — what the radix tool makes of its own output.

  A row has a cell for each radix; without its label, a cell is a numeral that can be put in again
  (`unlabelled`). A whole number up to 2^53 is the same number again in two cases
  (`reads_back_what_it_shows`):

  - it is not negative. Then its numeral is plain digits, read in the origin radix, or decimal and
    evaluated (`evaluate_integer`);
  - it is negative and has the same digits in decimal. The sign is no digit, so the text is not plain
    digits and is evaluated as an expression, in decimal.

  For other negative numbers the second rule gives another number: binary -10 is read as minus ten
  (`minus_two_is_read_as_minus_ten`).
-/
import Positional.Conversion
import Positional.Proofs.Expression.Wrapped
import Positional.Proofs.Numeral.RoundTrip

namespace Positional

open Binary64 Cursor Numeral

/-! ## (1) The text of a whole number -/

namespace Numeral

variable (r : Radix) (m : ℤ)

theorem notMem_integer {x : Char} (hx : x ≠ '-') (hd : Digit.isDigit x = false) : x ∉ integer r m := by
  have hdigits := Digit.notMem_of_isDigit (isDigit_symbol_digits r m.natAbs) hd
  rw [integer_eq]
  split
  · exact List.not_mem_cons_of_ne_of_not_mem hx hdigits
  · exact hdigits

theorem solid_of_digits {t : Text} (hne : t ≠ []) (h : ∀ x ∈ t, Digit.isDigit x = true) : Text.Solid t :=
  ⟨hne, fun x hx => isBlank_of_startsFactor (startsFactor_of_digit (h x hx))⟩

theorem solid_spelling (negative : Bool) {t : Text} (hne : t ≠ []) (h : ∀ x ∈ t, Digit.isDigit x = true) :
    Text.Solid (spelling negative t []) := by
  rw [spelling, List.isEmpty_nil, if_pos rfl, List.append_nil]
  cases negative with
  | false => exact solid_of_digits hne h
  | true => exact (solid_of_digits hne h).cons rfl

theorem solid_integer : Text.Solid (integer r m) :=
  solid_spelling _ (by simpa using digits_ne_nil (r := r) m.natAbs) (isDigit_symbol_digits r _)

theorem upperCase_integer : (integer r m).upperCase = integer r m := by
  have hds : Text.upperCase ((digits r m.natAbs).map Digit.symbol) = (digits r m.natAbs).map Digit.symbol :=
    Radix.upperCase_of_mapM_readDigit (Radix.mapM_readDigit_symbol (digits_lt r _))
  rw [integer_eq]
  split
  · rw [Text.upperCase, List.flatMap_cons, ← Text.upperCase, hds]
    rfl
  · exact hds

/-- The sign is what keeps a numeral from being plain digits. -/
theorem isPlainNumeral_integer : Conversion.isPlainNumeral (integer r m) = decide (0 ≤ m) := by
  have hpoint : Text.cutAt? '.' (integer r m) = none := Text.cutAt?_eq_none (notMem_integer r m (by decide) (by decide))
  have hne : ((digits r m.natAbs).map Digit.symbol).isEmpty = false := by simpa using digits_ne_nil (r := r) m.natAbs
  have hall : ((digits r m.natAbs).map Digit.symbol).all Digit.isDigit = true :=
    List.all_eq_true.mpr (isDigit_symbol_digits r _)
  rw [Conversion.isPlainNumeral, hpoint, integer_eq]
  by_cases hm : m < 0
  · rw [if_pos (by simpa using hm), decide_eq_false (by omega)]
    rfl
  · rw [if_neg (by simpa using hm), decide_eq_true (by omega)]
    simp only [Conversion.isDigitRun, hne, hall, Bool.not_false, Bool.and_self]

end Numeral

/-! ## (2) Whole numbers as expressions -/

/-- A loop that shifts what it has by a place for the next digit. -/
theorem Radix.foldl_number (r : Radix) (value : Char → Nat) {t : Text} {ds : List Nat}
    (h : List.Forall₂ (fun x d => value x = d) t ds) (n : Nat) :
    t.foldl (fun n x => n * r.base + value x) n = n * r.base ^ ds.length + r.number ds := by
  induction h generalizing n with
  | nil => rw [List.foldl_nil, List.length_nil, pow_zero, Nat.mul_one, number_nil, Nat.add_zero]
  | cons hx _ ih =>
    rw [List.foldl_cons, ih, hx, number_cons, List.length_cons, pow_succ]
    ring

theorem Digit.of_value?_decimal {x : Char} {d : Nat} (h : value? x = some d) (hd : d < 10) :
    x.isDigit = true ∧ x.toNat - '0'.toNat = d := by
  have table : ∀ n : Fin 128, ∀ d ∈ value? (Char.ofNat n), d < 10 →
      (Char.ofNat n).isDigit = true ∧ (Char.ofNat n).toNat - '0'.toNat = d := by
    decide +kernel
  have hx := table ⟨x.toNat, (of_value? h).1⟩
  rw [Char.ofNat_toNat] at hx
  exact hx d h hd

section

variable {t : Text} {ds : List Nat} (hne : t ≠ []) (ht : t.mapM Radix.decimal.readDigit = .ok ds)

include ht

theorem decimal_of_mapM_readDigit :
    (∀ x ∈ t, x.isDigit = true) ∧ List.Forall₂ (fun x d => x.toNat - '0'.toNat = d) t ds := by
  refine (List.forall₂_and_left t ds).mp ((mapM_eq_ok.mp ht).imp fun x d hx => ?_)
  obtain ⟨hx, hd⟩ := Radix.readDigit_eq_ok.mp hx
  exact Digit.of_value?_decimal hx hd

theorem decimalValue_of_mapM_readDigit : t.decimalValue = Radix.decimal.number ds := by
  have hfold := Radix.decimal.foldl_number _ (decimal_of_mapM_readDigit ht).2 0
  rwa [Nat.zero_mul, Nat.zero_add] at hfold

include hne

/-- The grammar reads digits as the decimal number they denote, in any length, and so does it behind a sign. -/
theorem Expression.evaluate_digits (s : Setting) (language : Language) (negative : Bool)
    (hle : Radix.decimal.number ds ≤ twoPow 53) :
    ∃ h, evaluate s language (spelling negative t []) = .ok (.finite negative (Radix.decimal.number ds * one) h) := by
  have hdigits : Text.isDigits t = true := Text.isDigits_iff.mpr ⟨hne, (decimal_of_mapM_readDigit ht).1⟩
  obtain ⟨h, hnumber⟩ : (MixedNumber.ofDigits t).Measures (Radix.decimal.number ds * one) := by
    rw [MixedNumber.ofDigits, decimalValue_of_mapM_readDigit ht]
    exact measures_ofDecimal hle
  refine ⟨h, evaluate_of_value ?_⟩
  have hsigned : spelling negative t [] = if negative then '-' :: t else t := by
    cases negative <;> simp [spelling]
  rw [Text.trim_of_solid (solid_spelling negative hne (Radix.isDigit_of_mapM_readDigit ht)), grammarValue]
  let d : Cursor := ⟨[], (spelling negative t []).length⟩
  have hspans : Spans (Cursor.start (spelling negative t [])) (if negative then '-' :: t else t) d := by
    rw [← hsigned]
    exact ⟨(List.append_nil _).symm, (Nat.zero_add _).symm⟩
  have hend : Blank d.rest := Text.blank_nil
  have hderives : Derives language.factorial _ (.chain .sum) (Cursor.start (spelling negative t [])) _ d :=
    MixedNumber.derives_signed negative hdigits (Gap.refl _) hspans (closing_of_blank hend).apart
      (fun _ => not_token_of_blank hend rfl) (fun _ => not_token_of_blank hend rfl)
  rcases read_or_breaks hderives hend with hread | ⟨hdeep, _⟩
  · rw [hread, hnumber]
    cases negative <;> rfl
  · split at hdeep <;> exact absurd hdeep (by decide)

end

/-- The grammar gives decimal numerals of whole numbers the number they denote. -/
theorem Expression.evaluate_integer (s : Setting) (language : Language) {m : ℤ} (hle : |m| ≤ 2 ^ 53) :
    ∃ h, evaluate s language (integer .decimal m) = .ok (.finite (decide (m < 0)) (m.natAbs * one) h) := by
  have hne : (digits .decimal m.natAbs).map Digit.symbol ≠ [] := by simpa using digits_ne_nil (r := .decimal) m.natAbs
  have hvalue := evaluate_digits hne (Radix.mapM_readDigit_symbol (digits_lt .decimal _)) s language (decide (m < 0))
  rw [number_digits] at hvalue
  exact hvalue (natAbs_le_twoPow hle)

/-! ## (3) Rows and their cells -/

namespace Conversion

/-- The cell that shows a row's number in the radix `c`. -/
def cell? (origin : Radix) (cells : List Text) (c : Radix) : Option Text :=
  ((origin :: origin.others).zip cells).lookup c

/-- What stands in the parentheses of a cell. -/
def unlabelled (cell : Text) : Text := (cell.drop 1).takeWhile (· != ')')

theorem unlabelled_labelled {digits : Text} (base : Nat) (h : ')' ∉ digits.upperCase) :
    unlabelled (labelled digits base) = digits.upperCase := by
  have hd : ∀ x ∈ digits.upperCase, (x != ')') = true := by
    intro x hx
    rw [bne_iff_ne]
    exact fun he => h (he ▸ hx)
  rw [unlabelled, labelled, List.cons_append, List.drop_one, List.tail_cons, List.takeWhile_append_of_pos hd,
    List.takeWhile_cons_of_neg (by simp), List.append_nil]

theorem lookup_zip_map (f : Radix → Text) {rs : List Radix} {c : Radix} (h : c ∈ rs) :
    (rs.zip (rs.map f)).lookup c = some (f c) := by
  induction rs with
  | nil => cases h
  | cons r rs ih =>
    rw [List.map_cons, List.zip_cons_cons, List.lookup_cons]
    by_cases hr : c = r
    · subst hr
      rw [beq_self_eq_true]
    · have hne : (c == r) = false := by simpa using hr
      rw [hne]
      exact ih (List.mem_of_ne_of_mem hr h)

theorem mem_columns (origin c : Radix) : c ∈ origin :: origin.others := by
  cases origin <;> cases c <;> decide

section

variable {x : Binary64} {m : ℤ} (hx : x.isFinite = true) (hm : x.toRat = m) (hle : |m| ≤ 2 ^ 53)

include hx hm hle

theorem row_whole (origin : Radix) (p : Nat) :
    row origin p x = .ok ((origin :: origin.others).map fun r => labelled (integer r m) r.base) := by
  rw [row, mapM_eq_ok, List.forall₂_map_right_iff, List.forall₂_same]
  intro r _
  rw [inRadix_whole r p hx hm hle]
  rfl

theorem cell?_row (origin c : Radix) (p : Nat) : ∃ cells cell, row origin p x = .ok cells ∧
    cell? origin cells c = some cell ∧ unlabelled cell = integer c m := by
  have hclosing : ')' ∉ (integer c m).upperCase := by
    rw [upperCase_integer]
    exact notMem_integer c m (by decide) (by decide)
  refine ⟨_, _, row_whole hx hm hle origin p, lookup_zip_map _ (mem_columns origin c), ?_⟩
  rw [unlabelled_labelled _ hclosing, upperCase_integer]

end

theorem row_negative {x : Binary64} {n : Nat} (hx : x.isFinite = true) (hm : x.toRat = (-n : ℤ)) (h0 : n ≠ 0)
    (hle : n ≤ 2 ^ 53) (origin : Radix) (p : Nat) :
    row origin p x = .ok ((origin :: origin.others).map fun r =>
      labelled ('-' :: (Nat.digits r.base n).reverse.map Digit.symbol) r.base) := by
  have habs : |(-n : ℤ)| ≤ 2 ^ 53 := by
    rw [abs_neg, Nat.abs_cast]
    exact_mod_cast hle
  rw [row_whole hx hm habs]
  simp only [integer_neg _ h0]

/-! ## (4) Rows read back -/

section

variable (s : Setting) (language : Language) {origin : Radix} {t : Text}

theorem read_of_plain (ho : origin ≠ .decimal) (ht : isPlainNumeral t.trim = true) :
    read s language origin t = (Numeral.read origin t.trim).mapError .numeral := by
  have hne : (origin == .decimal) = false := by simpa using ho
  simp only [read, hne, ht, Bool.not_true, Bool.or_self, Bool.false_eq_true, if_false]

theorem read_of_expression (h : origin = .decimal ∨ isPlainNumeral t.trim = false) :
    read s language origin t = (Expression.evaluate s language t.trim).mapError .expression := by
  have htest : (origin == .decimal || !isPlainNumeral t.trim) = true := by
    rcases h with rfl | h
    · rfl
    · rw [h, Bool.not_false, Bool.or_true]
  simp only [read, htest, if_true]

variable {m : ℤ}

theorem read_of_negative (hneg : m < 0) : read s language origin (integer origin m) =
    (Expression.evaluate s language (integer origin m)).mapError .expression := by
  have htrim := Text.trim_of_solid (solid_integer origin m)
  have hplain : isPlainNumeral (integer origin m) = false := by
    rw [isPlainNumeral_integer, decide_eq_false (by omega)]
  rw [read_of_expression s language (Or.inr (by rw [htrim, hplain])), htrim]

/-- A numeral is read as the number it denotes, if its sign does not make it a decimal one. -/
theorem read_numeral_of_whole (hle : |m| ≤ 2 ^ 53) (h : 0 ≤ m ∨ digits origin m.natAbs = digits .decimal m.natAbs) :
    ∃ y, read s language origin (integer origin m) = .ok y ∧ y.isFinite = true ∧ y.toRat = m := by
  have htrim := Text.trim_of_solid (solid_integer origin m)
  by_cases hplain : origin ≠ .decimal ∧ 0 ≤ m
  · obtain ⟨hr, hread⟩ := read_integer origin hle
    have hdigits : isPlainNumeral (integer origin m).trim = true := by
      rw [htrim, isPlainNumeral_integer, decide_eq_true hplain.2]
    refine ⟨_, ?_, rfl, toRat_integer hr⟩
    rw [read_of_plain s language hplain.1 hdigits, htrim, hread]
    rfl
  · obtain ⟨hr, hvalue⟩ := Expression.evaluate_integer s language hle
    have hdecimal : integer origin m = integer .decimal m := by
      by_cases ho : origin = .decimal
      · rw [ho]
      · rw [integer_eq, integer_eq, h.resolve_left fun hm => hplain ⟨ho, hm⟩]
    refine ⟨_, ?_, rfl, toRat_integer hr⟩
    rw [read_of_expression, htrim, hdecimal, hvalue]
    · rfl
    · by_cases ho : origin = .decimal
      · exact Or.inl ho
      · right
        rw [htrim, isPlainNumeral_integer, decide_eq_false fun hm => hplain ⟨ho, hm⟩]

end

/-! ## (5) What is typed -/

section

variable (s : Setting)

theorem read_trim (language : Language) (origin : Radix) (t : Text) :
    read s language origin t.trim = read s language origin t := by
  simp only [read, Text.trim_trim]

theorem inBinary_trim (p : Nat) (t : Text) : inBinary s p t.trim = inBinary s p t := by
  rw [inBinary, inBinary, Expression.evaluate_trim]

theorem inAllRadices_trim (origin : Radix) (p : Nat) (t : Text) :
    inAllRadices s origin p t.trim = inAllRadices s origin p t := by
  rw [inAllRadices, inAllRadices, read_trim]

theorem inBinary_of_value {t digits : Text} {x : Binary64} {p : Nat} (h : Expression.evaluate s .binaryTool t = .ok x)
    (hdigits : x.inRadix .binary p = .ok digits) : inBinary s p t = .ok digits :=
  bind_eq_ok.mpr ⟨x, mapError_eq_ok.mpr h, mapError_eq_ok.mpr hdigits⟩

/-- Plain digits that the origin does not have are not tried as an expression. -/
theorem inAllRadices_of_plain {origin : Radix} {t : Text} {e : NumeralError} (ho : origin ≠ .decimal)
    (ht : isPlainNumeral t.trim = true) (h : Numeral.read origin t.trim = .error e) (p : Nat) :
    inAllRadices s origin p t = .error (.numeral e) := by
  rw [inAllRadices, read_of_plain s .radixTool ho ht, h]
  rfl

end

/-- The tool reads its own cells back, but for those of negative numbers that are not their decimal numerals. These
are evaluated as expressions. -/
theorem reads_back_what_it_shows (s : Setting) (b c : Radix) (p : Nat) {x : Binary64} {m : ℤ} (hx : x.isFinite = true)
    (hm : x.toRat = m) (hle : |m| ≤ 2 ^ 53) : ∃ cells cell again, row b p x = .ok cells ∧ cell? b cells c = some cell ∧
      row c p x = .ok again ∧
      (0 ≤ m ∨ digits c m.natAbs = digits .decimal m.natAbs → inAllRadices s c p (unlabelled cell) = .ok again) ∧
      (m < 0 → read s .radixTool c (unlabelled cell) =
        (Expression.evaluate s .radixTool (unlabelled cell)).mapError .expression) := by
  obtain ⟨cells, cell, hrow, hcell, hnumeral⟩ := cell?_row hx hm hle b c p
  refine ⟨cells, cell, _, hrow, hcell, row_whole hx hm hle c p, fun h => ?_, fun hneg => ?_⟩
  · obtain ⟨y, hread, hy, hvalue⟩ := read_numeral_of_whole s .radixTool hle h
    have hrow := row_whole hy hvalue hle c p
    rw [inAllRadices, hnumeral, hread]
    exact mapError_eq_ok.mpr hrow
  · rw [hnumeral]
    exact read_of_negative s .radixTool hneg

/-- Minus seven has the same digits in octal and in decimal. -/
theorem reads_back_what_it_shows_minus_seven :
    let s : Setting := ⟨⟨fun _ x => x, fun x _ => x⟩, fun _ => ⟨0, twoPow_pos 53⟩⟩
    let x : Binary64 := .finite true (7 * one) (representable_ofNat (by decide))
    x.isFinite = true ∧ x.toRat = (-7 : ℤ) ∧ |(-7 : ℤ)| ≤ 2 ^ 53 ∧ digits .octal 7 = digits .decimal 7 ∧
      ∃ cells cell again, row .binary 0 x = .ok cells ∧ cell? .binary cells .octal = some cell ∧
        row .octal 0 x = .ok again ∧ inAllRadices s .octal 0 (unlabelled cell) = .ok again ∧
        read s .radixTool .octal (unlabelled cell) =
          (Expression.evaluate s .radixTool (unlabelled cell)).mapError .expression := by
  intro s x
  have hm : x.toRat = (-7 : ℤ) := toRat_whole true _
  have hle : |(-7 : ℤ)| ≤ 2 ^ 53 := by decide
  have hdigits : digits .octal 7 = digits .decimal 7 := by
    rw [digits_eq (by decide), digits_eq (by decide)]
    rfl
  obtain ⟨cells, cell, again, hrow, hcell, hagain, hback, hread⟩ :=
    reads_back_what_it_shows s .binary .octal 0 (x := x) rfl hm hle
  exact ⟨rfl, hm, hle, hdigits, cells, cell, again, hrow, hcell, hagain, hback (Or.inr hdigits), hread (by decide)⟩

/-- Minus two is shown as binary -10, which is read as minus ten. -/
theorem minus_two_is_read_as_minus_ten :
    let s : Setting := ⟨⟨fun _ x => x, fun x _ => x⟩, fun _ => ⟨0, twoPow_pos 53⟩⟩
    let x : Binary64 := .finite true (2 * one) (representable_ofNat (by decide))
    let cells : List Text := ["(-10)₂".toList, "(-2)₈".toList, "(-2)₁₀".toList, "(-2)₁₆".toList]
    let again : List Text := ["(-1010)₂".toList, "(-12)₈".toList, "(-10)₁₀".toList, "(-A)₁₆".toList]
    x.isFinite = true ∧ x.toRat = (-2 : ℤ) ∧ |(-2 : ℤ)| ≤ 2 ^ 53 ∧ row .binary 0 x = .ok cells ∧
      cell? .binary cells .binary = some "(-10)₂".toList ∧
      inAllRadices s .binary 0 (unlabelled "(-10)₂".toList) = .ok again ∧ again ≠ cells := by
  intro s x cells again
  have hx : x.toRat = (-2 : ℤ) := toRat_whole true _
  have hrow : row .binary 0 x = .ok cells := (row_negative (n := 2) rfl hx (by decide) (by decide) .binary 0).trans
    (by decide +kernel)
  have hten : ∃ y, read s .radixTool .binary ['-', '1', '0'] = .ok y ∧ y.isFinite = true ∧ y.toRat = (-10 : ℤ) := by
    have hbinary : integer .binary (-2) = ['-', '1', '0'] := integer_neg .binary (n := 2) (by decide)
    have hdecimal : integer .decimal (-10) = ['-', '1', '0'] := integer_neg .decimal (n := 10) (by decide)
    obtain ⟨h, hvalue⟩ := Expression.evaluate_integer s .radixTool (m := -10) (by decide)
    have hread : read s .radixTool .binary (integer .binary (-2)) = _ := read_of_negative s .radixTool (by decide)
    rw [hbinary, ← hdecimal, hvalue, hdecimal] at hread
    exact ⟨_, hread, rfl, toRat_integer h⟩
  have hagain : inAllRadices s .binary 0 (unlabelled "(-10)₂".toList) = .ok again := by
    obtain ⟨y, hread, hy, hvalue⟩ := hten
    have hunlabelled : unlabelled "(-10)₂".toList = ['-', '1', '0'] := by decide +kernel
    have hten := row_negative (n := 10) hy hvalue (by decide) (by decide) .binary 0
    rw [inAllRadices, hunlabelled, hread]
    exact mapError_eq_ok.mpr (hten.trans (by decide +kernel))
  exact ⟨rfl, hx, by decide, hrow, by decide +kernel, hagain, by decide +kernel⟩

end Conversion

end Positional
