/-
  Positional.Proofs.Conversion.Row — the cells of a row, next to one another.

  The cells of a row are written one by one, each in its own radix. Whether a number can be written
  does not depend on the radix, so a row has all its cells or one error, whatever the origin
  (`row_eq_ok`, `row_eq_error`). The origin only decides where its own cell stands.

  All cells show one number (`rows_show_one_number`): they agree on the sign, and the binary, the octal
  and the hexadecimal one are cut off later and later, none of them by more than the binary one.
-/
import Positional.Proofs.Conversion
import Positional.Proofs.Numeral.Value

namespace Positional.Conversion

open Binary64 Numeral

/-- A cell shows a number in a radix. -/
def Shows (x : Binary64) (p : Nat) (r : Radix) (cell : Text) : Prop :=
  ∃ t, x.inRadix r p = .ok t ∧ cell = labelled t r.base

variable {x : Binary64} {p : Nat}

/-! ## (1) All cells or none -/

theorem perm_columns (origin : Radix) : (origin :: origin.others).Perm Radix.all := by
  cases origin <;> decide

theorem pairwise_others (origin : Radix) : origin.others.Pairwise fun r r' => r.base < r'.base := by
  cases origin <;> decide

theorem row_eq_error {origin : Radix} {e : NumeralError} : row origin p x = .error e ↔ x.inRadix .binary p = .error e := by
  have hcell (r : Radix) : (do let digits ← x.inRadix r p; return labelled digits r.base) = .error e ↔
      x.inRadix r p = .error e := by
    cases x.inRadix r p <;> simp [bind, Except.bind, pure, Except.pure]
  constructor
  · intro h
    have hmapM {rs : List Radix} (hrs : rs.mapM (fun r => do
        let digits ← x.inRadix r p
        return labelled digits r.base) = .error e) : ∃ r, x.inRadix r p = .error e := by
      induction rs with
      | nil => cases hrs
      | cons r rs ih =>
        rw [List.mapM_cons, bind_eq_error] at hrs
        rcases hrs with hr | ⟨_, _, hrs⟩
        · exact ⟨r, (hcell r).mp hr⟩
        · rcases bind_eq_error.mp hrs with hrs | ⟨_, _, hrs⟩
          · exact ih hrs
          · cases hrs
    obtain ⟨r, hr⟩ := hmapM h
    exact inRadix_error hr .binary
  · intro h
    rw [row, List.mapM_cons, bind_eq_error]
    exact Or.inl ((hcell origin).mpr (inRadix_error h origin))

theorem row_eq_ok {origin : Radix} {cells : List Text} :
    row origin p x = .ok cells ↔ List.Forall₂ (Shows x p) (origin :: origin.others) cells := by
  have hcell (r : Radix) (cell : Text) :
      (do let digits ← x.inRadix r p; return labelled digits r.base) = .ok cell ↔ Shows x p r cell := by
    rw [bind_eq_ok]
    exact exists_congr fun t => and_congr_right fun _ => ⟨fun h => (Except.ok.inj h).symm, fun h => h ▸ rfl⟩
  rw [row, mapM_eq_ok]
  simp only [hcell]

/-- A row that has no error has the cells of all numerals of its number. -/
theorem exists_row (h : x.isFinite = true ∧ |x.toRat| < 2 ^ 128) : ∃ numeral : Radix → Text,
    (∀ r, x.inRadix r p = .ok (numeral r)) ∧
      ∀ origin, row origin p x = .ok ((origin :: origin.others).map fun r => labelled (numeral r) r.base) := by
  choose numeral hnumeral using fun r => (exists_inRadix_iff r p x).mpr h
  refine ⟨numeral, hnumeral, fun origin => row_eq_ok.mpr ?_⟩
  rw [List.forall₂_map_right_iff, List.forall₂_same]
  exact fun r _ => ⟨numeral r, hnumeral r, rfl⟩

theorem exists_row_iff (origin : Radix) :
    (∃ cells, row origin p x = .ok cells) ↔ x.isFinite = true ∧ |x.toRat| < 2 ^ 128 := by
  constructor
  · intro ⟨cells, h⟩
    obtain ⟨_, _, ⟨t, ht, -⟩, -⟩ := List.forall₂_cons_left_iff.mp (row_eq_ok.mp h)
    exact (exists_inRadix_iff origin p x).mp ⟨t, ht⟩
  · intro h
    obtain ⟨_, _, hrow⟩ := exists_row (p := p) h
    exact ⟨_, hrow origin⟩

/-! ## (2) What a cell holds -/

theorem notMem_subscript (r : Radix) : '-' ∉ subscript r.base ∧ ' ' ∉ subscript r.base := by
  cases r <;> decide

section

variable {r : Radix} {t : Text} (h : x.inRadix r p = .ok t)

include h

theorem mem_of_inRadix {c : Char} (hc : c ∈ t) : c = '-' ∨ c = '.' ∨ Digit.isDigit c = true := by
  obtain ⟨n, hn, rfl⟩ := inRadix_eq_ok.mp h
  exact (mem_text (digits_of_ofNumber hn).1 hc).imp_left And.left

theorem upperCase_of_inRadix : t.upperCase = t := by
  obtain ⟨n, hn, rfl⟩ := inRadix_eq_ok.mp h
  exact upperCase_text (digits_of_ofNumber hn).1

theorem unlabelled_of_inRadix : unlabelled (labelled t r.base) = t := by
  have hclosing : ')' ∉ t := fun hm => by
    rcases mem_of_inRadix h hm with hc | hc | hc <;> cases hc
  have hupper := upperCase_of_inRadix h
  rw [unlabelled_labelled _ (by rwa [hupper]), hupper]

theorem minus_mem_of_inRadix : '-' ∈ t ↔ x.toRat < 0 := by
  obtain ⟨n, hn, rfl⟩ := inRadix_eq_ok.mp h
  obtain ⟨hdigits, hsign⟩ := digits_of_ofNumber hn
  rw [← hsign]
  constructor
  · intro hm
    rcases mem_text hdigits hm with hm | hm | hm
    · exact hm.2
    · cases hm
    · cases hm
  · intro hneg
    rw [Numeral.text, if_pos hneg]
    exact List.mem_cons_self

theorem mem_labelled {c : Char} (hc : c ∈ labelled t r.base) : c = '(' ∨ c ∈ t ∨ c = ')' ∨ c ∈ subscript r.base := by
  rw [labelled, upperCase_of_inRadix h] at hc
  simpa using hc

theorem minus_mem_labelled : '-' ∈ labelled t r.base ↔ x.toRat < 0 := by
  rw [← minus_mem_of_inRadix h]
  constructor
  · intro hm
    rcases mem_labelled h hm with hc | hc | hc | hc
    · cases hc
    · exact hc
    · cases hc
    · exact absurd hc (notMem_subscript r).1
  · intro hm
    rw [labelled, upperCase_of_inRadix h]
    exact List.mem_cons_of_mem _ (List.mem_append_left _ hm)

/-- A cell has no spaces. -/
theorem space_notMem_labelled : ' ' ∉ labelled t r.base := by
  intro hm
  rcases mem_labelled h hm with hc | hc | hc | hc
  · cases hc
  · rcases mem_of_inRadix h hc with hc | hc | hc <;> cases hc
  · cases hc
  · exact absurd hc (notMem_subscript r).2

end

theorem space_notMem_row {origin : Radix} {cells : List Text} (h : row origin p x = .ok cells) :
    ∀ cell ∈ cells, ' ' ∉ cell := by
  intro cell hcell
  obtain ⟨numeral, hnumeral, hrow⟩ := exists_row (p := p) ((exists_row_iff origin).mp ⟨cells, h⟩)
  obtain rfl := Except.ok.inj (h.symm.trans (hrow origin))
  obtain ⟨r, -, rfl⟩ := List.mem_map.mp hcell
  exact space_notMem_labelled (hnumeral r)

/-! ## (3) One number -/

/-- Of the radices that are powers of two, one with a larger base shows no less of a number. -/
theorem magnitude_le_magnitude {r r' : Radix} (hr : r ≠ .decimal) (hr' : r' ≠ .decimal) (hdvd : r.base ^ p ∣ r'.base ^ p)
    {t t' : Text} (h : x.inRadix r p = .ok t) (h' : x.inRadix r' p = .ok t') : magnitude r t ≤ magnitude r' t' := by
  obtain ⟨d, hd⟩ := hdvd
  have hpos : 0 < d := Nat.pos_of_mul_pos_left (hd ▸ Nat.pow_pos r'.base_pos : 0 < r.base ^ p * d)
  have hcut := cut_le_cut (Nat.pow_pos r.base_pos : 0 < r.base ^ p) (abs_nonneg x.toRat) hpos
  rw [← hd, Nat.cast_pow, Nat.cast_pow] at hcut
  rwa [magnitude_inRadix hr h, magnitude_inRadix hr' h']

/-- Exactly the finite numbers below 2^128 have rows, the others one error in every radix. The origin's cell comes first
and the others by ascending base, so another origin only puts the same cells in another order. They carry the sign of
their number, and the radices that are powers of two show it ever more closely. -/
theorem rows_show_one_number (x : Binary64) (p : Nat) :
    (∀ origin, (∃ cells, row origin p x = .ok cells) ↔ x.isFinite = true ∧ |x.toRat| < 2 ^ 128) ∧
    (∀ origin e, row origin p x = .error e → ∀ origin', row origin' p x = .error e) ∧
    ∀ origin cells, row origin p x = .ok cells →
      (cells.length = 4 ∧ List.Forall₂ (Shows x p) (origin :: origin.others) cells ∧
        origin.others.Pairwise (fun r r' => r.base < r'.base) ∧ (origin :: origin.others).Perm Radix.all) ∧
      (∀ origin', ∃ cells', row origin' p x = .ok cells' ∧ cells'.Perm cells) ∧
      (∀ cell ∈ cells, '-' ∈ cell ↔ x.toRat < 0) ∧
      ∃ c₂ c₈ c₁₆, cell? origin cells .binary = some c₂ ∧ cell? origin cells .octal = some c₈ ∧
        cell? origin cells .hexadecimal = some c₁₆ ∧
        magnitude .binary (unlabelled c₂) ≤ magnitude .octal (unlabelled c₈) ∧
        magnitude .octal (unlabelled c₈) ≤ magnitude .hexadecimal (unlabelled c₁₆) ∧
        magnitude .hexadecimal (unlabelled c₁₆) ≤ |x.toRat| ∧
        |x.toRat| < magnitude .binary (unlabelled c₂) + 1 / 2 ^ p := by
  refine ⟨fun origin => exists_row_iff origin, fun origin e he origin' => row_eq_error.mpr (row_eq_error.mp he),
    fun origin cells hcells => ?_⟩
  obtain ⟨numeral, hnumeral, hrow⟩ := exists_row (p := p) ((exists_row_iff origin).mp ⟨cells, hcells⟩)
  have hcolumns : cells = (origin :: origin.others).map fun r => labelled (numeral r) r.base :=
    Except.ok.inj (hcells.symm.trans (hrow origin))
  have hcell (r : Radix) : cell? origin cells r = some (labelled (numeral r) r.base) := by
    rw [hcolumns]
    exact lookup_zip_map _ (mem_columns origin r)
  refine ⟨⟨?_, row_eq_ok.mp hcells, pairwise_others origin, perm_columns origin⟩, fun origin' => ?_, fun cell hm => ?_,
    _, _, _, hcell .binary, hcell .octal, hcell .hexadecimal, ?_, ?_, ?_, ?_⟩
  · rw [hcolumns, List.length_map, (perm_columns origin).length_eq]
    rfl
  · refine ⟨_, hrow origin', ?_⟩
    rw [hcolumns]
    exact ((perm_columns origin').trans (perm_columns origin).symm).map _
  · rw [hcolumns, List.mem_map] at hm
    obtain ⟨r, -, rfl⟩ := hm
    exact minus_mem_labelled (hnumeral r)
  all_goals simp only [unlabelled_of_inRadix (hnumeral _)]
  · exact magnitude_le_magnitude (by decide) (by decide) (pow_dvd_pow_of_dvd (by decide) p) (hnumeral _) (hnumeral _)
  · exact magnitude_le_magnitude (by decide) (by decide) (pow_dvd_pow_of_dvd (by decide) p) (hnumeral _) (hnumeral _)
  · have hle := cut_le (Nat.pow_pos Radix.hexadecimal.base_pos : 0 < Radix.hexadecimal.base ^ p) (abs_nonneg x.toRat)
    rw [Nat.cast_pow] at hle
    rwa [magnitude_inRadix (by decide) (hnumeral .hexadecimal)]
  · have hlt := lt_cut_add (q := |x.toRat|) (Nat.pow_pos Radix.binary.base_pos : 0 < Radix.binary.base ^ p)
    rw [Nat.cast_pow] at hlt
    rwa [magnitude_inRadix (by decide) (hnumeral .binary)]

/-- Minus ten and five eighths, cut off after two places, and not-a-number. -/
theorem rows_show_one_number_ten_and_five_eighths :
    let x : Binary64 := .finite true (85 * twoPow 1071) (representable_scaled (by decide) (by decide))
    let cells : List Text := ["(-12.5)₈".toList, "(-1010.10)₂".toList, "(-10.62)₁₀".toList, "(-A.A)₁₆".toList]
    row .octal 2 x = .ok cells ∧ (∃ again, row .decimal 2 x = .ok again ∧ again.Perm cells) ∧
      (∀ cell ∈ cells, '-' ∈ cell ↔ x.toRat < 0) ∧
      magnitude .binary "-1010.10".toList ≤ magnitude .octal "-12.5".toList ∧
      magnitude .octal "-12.5".toList ≤ magnitude .hexadecimal "-A.A".toList ∧
      magnitude .hexadecimal "-A.A".toList ≤ |x.toRat| ∧ |x.toRat| < magnitude .binary "-1010.10".toList + 1 / 2 ^ 2 ∧
      row .binary 2 nan = .error (.notFinite nan) ∧ row .hexadecimal 2 nan = .error (.notFinite nan) := by
  intro x cells
  have hwhole : 85 * twoPow 1071 / one = 10 := by decide +kernel
  have hnumeral (r : Radix) : x.inRadix r 2 =
      .ok (Numeral.text ⟨true, (Nat.digits r.base 10).reverse, expansion r 2 (85 * twoPow 1071 % one)⟩) := by
    rw [inRadix_finite, if_neg (by decide +kernel), hwhole, if_neg (by decide), digits_eq (by decide)]
  have hrow : row .octal 2 x = .ok cells := by
    have hcells : List.Forall₂ (Shows x 2) (.octal :: Radix.octal.others) cells := by
      refine .cons ⟨_, hnumeral .octal, ?_⟩ (.cons ⟨_, hnumeral .binary, ?_⟩ (.cons ⟨_, hnumeral .decimal, ?_⟩
        (.cons ⟨_, hnumeral .hexadecimal, ?_⟩ .nil)))
      all_goals decide +kernel
    exact row_eq_ok.mpr hcells
  have hnan : row .binary 2 nan = .error (.notFinite nan) := rfl
  obtain ⟨-, -, hcells⟩ := rows_show_one_number x 2
  obtain ⟨-, hperm, hsign, c₂, c₈, c₁₆, h₂, h₈, h₁₆, hmagnitudes⟩ := hcells .octal cells hrow
  obtain rfl : "(-1010.10)₂".toList = c₂ := Option.some.inj h₂
  obtain rfl : "(-12.5)₈".toList = c₈ := Option.some.inj h₈
  obtain rfl : "(-A.A)₁₆".toList = c₁₆ := Option.some.inj h₁₆
  obtain ⟨-, hnone, -⟩ := rows_show_one_number nan 2
  exact ⟨hrow, hperm .decimal, hsign, hmagnitudes.1, hmagnitudes.2.1, hmagnitudes.2.2.1, hmagnitudes.2.2.2, hnan,
    hnone .binary _ hnan .hexadecimal⟩

end Positional.Conversion
