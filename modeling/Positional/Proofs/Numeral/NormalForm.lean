/-
  Positional.Proofs.Numeral.NormalForm — texts that are read, and how they are written again.

  One number has many texts: letters in either case, zeros in front of the whole part and behind the
  fraction, an empty side of the point, a sign before zero. `normalForm` takes from a text what says
  nothing about its number; it looks at characters only.

  In a radix that is a power of two, a text whose number is on the grid is read as this number. With at
  least as many places as the text has, the number is written in the normal form of the text
  (`written_in_normal_form`). Nothing is asked of the parts of the number: if the whole is on the grid,
  so are its whole part, its fraction and all their prefixes.
-/
import Positional.Proofs.Numeral.Expansion

namespace Positional

open Binary64

/-! ## (1) Zeros that say nothing -/

namespace Radix

variable {r : Radix}

theorem number_eq_zero_iff {ds : List Nat} : r.number ds = 0 ↔ ∀ d ∈ ds, d = 0 := by
  induction ds with
  | nil => simp [number_nil]
  | cons d ds ih =>
    have hpow : r.base ^ ds.length ≠ 0 := pow_ne_zero _ r.base_pos.ne'
    rw [number_cons, Nat.add_eq_zero_iff, Nat.mul_eq_zero, or_iff_left hpow, ih, List.forall_mem_cons]

theorem dropWhile_eq_nil_iff {ds : List Nat} : ds.dropWhile (· == 0) = [] ↔ r.number ds = 0 := by
  simp [number_eq_zero_iff]

theorem rdropWhile_eq_nil_iff {ds : List Nat} : ds.rdropWhile (· == 0) = [] ↔ r.number ds = 0 := by
  simp [number_eq_zero_iff, List.rdropWhile_eq_nil_iff]

/-- As many digits of one number are the same. -/
theorem number_inj {ds es : List Nat} (hlen : ds.length = es.length) (hd : ∀ d ∈ ds, d < r.base)
    (he : ∀ e ∈ es, e < r.base) (h : r.number ds = r.number es) : ds = es := by
  have hreverse : ds.reverse = es.reverse := by
    refine Nat.ofDigits_inj_of_len_eq r.two_le_base ?_ ?_ ?_ h
    · rwa [List.length_reverse, List.length_reverse]
    · exact fun d hm => hd d (List.mem_reverse.mp hm)
    · exact fun e hm => he e (List.mem_reverse.mp hm)
  exact List.reverse_injective hreverse

end Radix

theorem rdropWhile_append_zeros (ds : List Nat) (n : Nat) :
    (ds ++ List.replicate n 0).rdropWhile (· == 0) = ds.rdropWhile (· == 0) := by
  have hzeros : ∀ d ∈ (List.replicate n 0).reverse, (d == 0) = true := by simp
  rw [List.rdropWhile, List.reverse_append, List.dropWhile_append_of_pos hzeros, List.rdropWhile]

theorem Digit.rdropWhile_symbol {ds : List Nat} (h : ∀ d ∈ ds, d < 16) :
    (ds.map symbol).rdropWhile (· == '0') = (ds.rdropWhile (· == 0)).map symbol := by
  rw [List.rdropWhile, List.rdropWhile, ← List.map_reverse, dropWhile_symbol fun d hd => h d (List.mem_reverse.mp hd),
    List.map_reverse]

namespace Numeral

variable {r : Radix} {k : Nat}

/-! ## (2) Texts that are read -/

/-- How a text that is read is put together: a sign, digits, and a point with more digits, unless none follow. -/
structure Sides (r : Radix) (t : Text) (negative : Bool) (whole tail fraction : Text) (ds fs : List Nat) : Prop where
  spelled : t = (if negative then ['-'] else []) ++ (whole ++ tail)
  tail_eq : tail = [] ∧ fraction = [] ∨ tail = '.' :: fraction
  whole_digits : whole.mapM r.readDigit = .ok ds
  fraction_digits : fraction.mapM r.readDigit = .ok fs

theorem sides?_eq_some {unsigned whole fraction : Text} (h : sides? unsigned = some (whole, fraction)) :
    unsigned = whole ∧ fraction = [] ∨ unsigned = whole ++ '.' :: fraction := by
  have hjoin : ['.'].intercalate (unsigned.splitOnP (· == '.')) = unsigned := List.intercalate_splitOn '.'
  unfold sides? at h
  split at h
  · rename_i w hw
    split at h
    · cases h
    · cases h
      rw [hw] at hjoin
      exact Or.inl ⟨by simpa using hjoin.symm, rfl⟩
  · rename_i w f hw
    split at h
    · cases h
    · cases h
      rw [hw] at hjoin
      exact Or.inr (by simpa using hjoin.symm)
  · cases h

theorem exists_sides_of_read {t : Text} {y : Binary64} (h : read r t = .ok y) :
    ∃ negative whole tail fraction ds fs, Sides r t negative whole tail fraction ds fs ∧
      y = withSign negative ((wholeValue r ds).add (fractionValue r fs)) := by
  have hsign : t = (if (splitSign t).1 then ['-'] else []) ++ (splitSign t).2 := by
    unfold splitSign
    split <;> rfl
  unfold read at h
  generalize splitSign t = signed at h hsign
  obtain ⟨negative, unsigned⟩ := signed
  simp only at h hsign
  split at h
  · cases h
  · rename_i whole fraction hsides
    obtain ⟨ds, hds, h⟩ := bind_eq_ok.mp h
    obtain ⟨fs, hfs, h⟩ := bind_eq_ok.mp h
    cases h
    rcases sides?_eq_some hsides with ⟨rfl, rfl⟩ | rfl
    · exact ⟨negative, unsigned, [], [], ds, fs, ⟨by simpa using hsign, Or.inl ⟨rfl, rfl⟩, hds, hfs⟩, rfl⟩
    · exact ⟨negative, whole, _, fraction, ds, fs, ⟨hsign, Or.inr rfl, hds, hfs⟩, rfl⟩

theorem filterMap_of_mapM {t : Text} {ds : List Nat} (h : t.mapM r.readDigit = .ok ds) :
    t.filterMap Digit.value? = ds := by
  have hf := mapM_eq_ok.mp h
  clear h
  induction hf with
  | nil => rfl
  | cons hx _ ih => rw [List.filterMap_cons_some (Radix.readDigit_eq_ok.mp hx).1, ih]

/-- A text without what says nothing about its number. -/
def normalForm (t : Text) : Text :=
  let negative := t.head? == some '-'
  let unsigned := if negative then t.tail else t
  let whole := (Text.upperCase (unsigned.takeWhile (· != '.'))).dropWhile (· == '0')
  let fraction := (Text.upperCase (unsigned.dropWhile (· != '.')).tail).rdropWhile (· == '0')
  if whole = [] ∧ fraction = [] then ['0'] else spelling negative (if whole = [] then ['0'] else whole) fraction

section

variable {t whole tail fraction : Text} {negative : Bool} {ds fs : List Nat}
  (h : Sides r t negative whole tail fraction ds fs)

include h

theorem Sides.digits_lt : ∀ d ∈ ds ++ fs, d < r.base := by
  rw [List.forall_mem_append]
  exact ⟨Radix.lt_base_of_mapM_readDigit h.whole_digits, Radix.lt_base_of_mapM_readDigit h.fraction_digits⟩

theorem Sides.not_point : ∀ x ∈ whole, (x != '.') = true := by
  intro x hx
  have hdigit := Radix.isDigit_of_mapM_readDigit h.whole_digits x hx
  rw [bne_iff_ne]
  rintro rfl
  cases hdigit

/-- Only a sign is one. -/
theorem Sides.head? : t.head? = some '-' ↔ negative = true := by
  rw [h.spelled]
  cases negative with
  | true => simp
  | false =>
    simp only [Bool.false_eq_true, if_false, List.nil_append, iff_false]
    cases whole with
    | nil =>
      rcases h.tail_eq with ⟨htail, -⟩ | htail <;> simp [htail]
    | cons x whole =>
      have hdigit := Radix.isDigit_of_mapM_readDigit h.whole_digits x List.mem_cons_self
      rw [List.cons_append, List.head?_cons, Option.some.injEq]
      rintro rfl
      cases hdigit

theorem Sides.length_eq : fraction.length = fs.length := (mapM_eq_ok.mp h.fraction_digits).length_eq

theorem Sides.places_eq : places t = fs.length := by
  have hwhole : '.' ∉ whole := Digit.notMem_of_isDigit (Radix.isDigit_of_mapM_readDigit h.whole_digits) rfl
  have hsign := point_notMem_signed negative hwhole
  unfold places
  rw [h.spelled, ← List.append_assoc, ← h.length_eq]
  rcases h.tail_eq with ⟨htail, hfraction⟩ | htail
  · rw [htail, hfraction, List.append_nil, Text.cutAt?_eq_none hsign]
    rfl
  · rw [htail, Text.cutAt?_append hsign]
    rfl

theorem Sides.filterMap_eq : t.filterMap Digit.value? = ds ++ fs := by
  have hsign : (if negative then ['-'] else []).filterMap Digit.value? = [] := by
    cases negative <;> rfl
  have htail : tail.filterMap Digit.value? = fs := by
    have hfraction := filterMap_of_mapM h.fraction_digits
    rcases h.tail_eq with ⟨rfl, rfl⟩ | rfl
    · exact hfraction
    · rw [List.filterMap_cons_none (by rfl), hfraction]
  rw [h.spelled, List.filterMap_append, List.filterMap_append, hsign, filterMap_of_mapM h.whole_digits, htail,
    List.nil_append]

/-- In units of the last place a text is read as one whole number. -/
theorem Sides.value_eq (hk : r.base = twoPow k) (hlen : k * fs.length ≤ 1074) :
    value r t = (if negative then -1 else 1) *
      ((r.number ds * one + r.number fs * twoPow (1074 - k * fs.length) : ℕ) / one) := by
  have hone := one_eq_pow_mul hk hlen
  have hpos : (0 : ℚ) < twoPow (1074 - k * fs.length) := by exact_mod_cast twoPow_pos _
  have hunits : r.number ds * one + r.number fs * twoPow (1074 - k * fs.length) =
      (r.number ds * r.base ^ fs.length + r.number fs) * twoPow (1074 - k * fs.length) := by
    rw [hone]
    ring
  rw [value, magnitude, h.filterMap_eq, h.places_eq, Radix.number_append, hunits, hone, Nat.cast_mul, Nat.cast_mul,
    mul_div_mul_right _ _ hpos.ne', Nat.cast_pow]
  simp only [h.head?]

/-- The normal form is told by the digits. -/
theorem Sides.normalForm_eq : normalForm t =
    if r.number ds = 0 ∧ r.number fs = 0 then ['0']
    else spelling negative ((digits r (r.number ds)).map Digit.symbol) ((fs.rdropWhile (· == 0)).map Digit.symbol) := by
  have hhead : (t.head? == some '-') = negative := by rw [Bool.eq_iff_iff, beq_iff_eq, h.head?]
  have hunsigned : (if negative then t.tail else t) = whole ++ tail := by
    rw [h.spelled]
    cases negative <;> rfl
  have htake : (whole ++ tail).takeWhile (· != '.') = whole := by
    rw [List.takeWhile_append_of_pos h.not_point]
    rcases h.tail_eq with ⟨rfl, -⟩ | rfl <;> simp
  have hdrop : ((whole ++ tail).dropWhile (· != '.')).tail = fraction := by
    rw [List.dropWhile_append_of_pos h.not_point]
    rcases h.tail_eq with ⟨rfl, rfl⟩ | rfl <;> simp
  have hlt : ∀ d ∈ ds ++ fs, d < 16 := fun d hd => Nat.lt_of_lt_of_le (h.digits_lt d hd) r.base_le
  rw [List.forall_mem_append] at hlt
  simp only [normalForm, hhead, hunsigned, htake, hdrop, Radix.upperCase_of_mapM_readDigit h.whole_digits,
    Radix.upperCase_of_mapM_readDigit h.fraction_digits, Digit.dropWhile_symbol hlt.1, Digit.rdropWhile_symbol hlt.2,
    List.map_eq_nil_iff, Radix.dropWhile_eq_nil_iff (r := r), Radix.rdropWhile_eq_nil_iff (r := r)]
  by_cases h0 : r.number ds = 0
  · rw [if_pos h0, h0, digits_zero]
    rfl
  · rw [if_neg h0, digits_number (Radix.lt_base_of_mapM_readDigit h.whole_digits) h0]

end

/-! ## (3) Texts that are written again -/

/-- A number that has these digits, and none after them. -/
theorem exactDigits_of_mul_eq {fs : List Nat} (hd : ∀ d ∈ fs, d < r.base) (m : Nat) {q : ℚ} (hlt : q < 1)
    (hq : q * r.base ^ (fs.length + m) = (r.number fs * r.base ^ m : ℕ)) :
    exactDigits r (fs.length + m) q = fs ++ List.replicate m 0 := by
  refine Radix.number_inj ?_ (exactDigits_lt r _ _) ?_ ?_
  · rw [length_exactDigits, List.length_append, List.length_replicate]
  · intro d hmem
    rcases List.mem_append.mp hmem with hmem | hmem
    · exact hd d hmem
    · rw [List.eq_of_mem_replicate hmem]
      exact r.base_pos
  · rw [number_exactDigits _ hlt, hq, Nat.floor_natCast, Radix.number_append, Radix.number_replicate_zero,
      List.length_replicate, Nat.add_zero]

/-- The digits of a fraction, without zeros at their end. -/
theorem expansion_number (hk : r.base = twoPow k) {fs : List Nat} (hd : ∀ d ∈ fs, d < r.base)
    (hlen : k * fs.length ≤ 1074) (h : Representable (r.number fs * twoPow (1074 - k * fs.length))) {p : Nat}
    (hp : fs.length ≤ p) :
    expansion r p (r.number fs * twoPow (1074 - k * fs.length)) = fs.rdropWhile (· == 0) := by
  have hone := one_eq_pow_mul hk hlen
  have hr := Radix.ne_decimal_iff.mpr ⟨k, hk⟩
  obtain ⟨m, rfl⟩ := Nat.exists_eq_add_of_le hp
  generalize hu : r.number fs * twoPow (1074 - k * fs.length) = u at h ⊢
  have hlt : u < one := by
    rw [← hu, hone]
    exact Nat.mul_lt_mul_of_pos_right (Radix.number_lt hd) (twoPow_pos _)
  -- at the place `p` the fraction is a whole number
  have hpower : (u : ℚ) / one * r.base ^ (fs.length + m) = (r.number fs * r.base ^ m : ℕ) := by
    have hunits : u * r.base ^ (fs.length + m) = r.number fs * r.base ^ m * one := by
      rw [← hu, hone]
      ring
    rw [div_mul_eq_mul_div, div_eq_iff one_pos_rat.ne']
    exact_mod_cast hunits
  rw [(expansion_eq hr _ h hlt).1 ⟨_, hpower⟩, exactDigits_of_mul_eq hd m (div_one_lt_one hlt) hpower,
    rdropWhile_append_zeros]

theorem units_eq_zero_iff {ds fs : List Nat} {g u : Nat} (hu : u = r.number ds * one + r.number fs * twoPow g) :
    u = 0 ↔ r.number ds = 0 ∧ r.number fs = 0 := by
  rw [hu, Nat.add_eq_zero_iff, Nat.mul_eq_zero, Nat.mul_eq_zero, or_iff_left Binary64.one_pos.ne',
    or_iff_left (twoPow_pos g).ne']

section

variable {t whole tail fraction : Text} {negative : Bool} {ds fs : List Nat} {p u : Nat}
  (h : Sides r t negative whole tail fraction ds fs) (hk : r.base = twoPow k)
  (hu : u = r.number ds * one + r.number fs * twoPow (1074 - k * fs.length))

include h hk hu

/-- Whole part and fraction of the number have the digits of the text. -/
theorem Sides.parts_eq (hlen : k * fs.length ≤ 1074) (hrep : Representable u) (hp : fs.length ≤ p) :
    u / one = r.number ds ∧ expansion r p (u % one) = fs.rdropWhile (· == 0) := by
  obtain ⟨hdiv, hmod⟩ := units_sides hk h.digits_lt hlen hu
  have hfraction := representable_mod hrep representable_one
  rw [hmod] at hfraction ⊢
  exact ⟨hdiv, expansion_number hk (Radix.lt_base_of_mapM_readDigit h.fraction_digits) hlen hfraction hp⟩

/-- The number of a text is written in the normal form of the text. -/
theorem Sides.inRadix_eq (hlen : k * fs.length ≤ 1074) {hrep : Representable u} (hp : fs.length ≤ p) {t' : Text}
    (ht : (finite negative u hrep).inRadix r p = .ok t') : t' = normalForm t := by
  obtain ⟨hwhole, hfraction⟩ := h.parts_eq hk hu hlen hrep hp
  rw [h.normalForm_eq, inRadix_spelling ht, hwhole, hfraction]
  by_cases h0 : u = 0
  · obtain ⟨hds, hfs⟩ := (units_eq_zero_iff hu).mp h0
    rw [if_pos ⟨hds, hfs⟩, decide_neg_of_eq h0, hds, digits_zero, Radix.rdropWhile_eq_nil_iff.mpr hfs]
    rfl
  · rw [if_neg (mt (units_eq_zero_iff hu).mpr h0), decide_neg_of_ne h0]

end

end Numeral

namespace Binary64

open Numeral

/-- In a radix that is a power of two, a text that is read and whose number is on the grid and below 2^128 is read as
this number, up to 1023 binary places behind the point. With no fewer places than the text has, the number is
written in the normal form of the text. -/
theorem written_in_normal_form {r : Radix} {k : Nat} (hk : r.base = 2 ^ k) {t : Text} {y : Binary64}
    (hread : Numeral.read r t = .ok y) (hgrid : ∃ x : Binary64, x.isFinite = true ∧ x.toRat = value r t)
    (hlt : |value r t| < 2 ^ 128) (hplaces : k * places t ≤ 1023) :
    y.isFinite = true ∧ y.toRat = value r t ∧ ∀ p, places t ≤ p → y.inRadix r p = .ok (normalForm t) := by
  obtain ⟨negative, whole, tail, fraction, ds, fs, hsides, rfl⟩ := exists_sides_of_read hread
  rw [hsides.places_eq] at hplaces ⊢
  have hlen : k * fs.length ≤ 1074 := Nat.le_trans hplaces (by decide)
  have hvalue := hsides.value_eq hk hlen
  generalize hu : r.number ds * one + r.number fs * twoPow (1074 - k * fs.length) = u at hvalue
  -- the units of both sides together are on the grid, and so the sum of the sides is exact
  have hrep : Representable u := by
    obtain ⟨x, hx, hxvalue⟩ := hgrid
    exact representable_of_toRat hx (hxvalue.trans hvalue)
  obtain ⟨h, hy⟩ := withSign_of_measures negative (measures_sides hk hsides.digits_lt hplaces hu.symm hrep)
  have htoRat : (finite negative u h).toRat = value r t := by rw [toRat_finite, hvalue]
  rw [hy]
  refine ⟨rfl, htoRat, fun p hp => ?_⟩
  obtain ⟨t', ht'⟩ := (exists_inRadix_iff r p (finite negative u h)).mpr ⟨rfl, by rwa [htoRat]⟩
  rw [ht', hsides.inRadix_eq hk hu.symm hlen hp ht']

/-- A sign, no whole part, and zeros behind hexadecimal digits in lower case. -/
theorem written_in_normal_form_point_8f00 :
    let t : Text := ['-', '.', '8', 'f', '0', '0']
    ∃ y, Numeral.read .hexadecimal t = .ok y ∧ value .hexadecimal t = -143 / 256 ∧
      (∃ x : Binary64, x.isFinite = true ∧ x.toRat = value .hexadecimal t) ∧ |value .hexadecimal t| < 2 ^ 128 ∧
      4 * places t ≤ 1023 ∧ places t ≤ 4 ∧ y.isFinite = true ∧ y.toRat = -143 / 256 ∧
      y.inRadix .hexadecimal 4 = .ok ['-', '0', '.', '8', 'F'] := by
  intro t
  have hread : Numeral.read .hexadecimal t =
      .ok (withSign true ((wholeValue .hexadecimal []).add (fractionValue .hexadecimal [8, 15, 0, 0]))) := rfl
  have hvalue : value .hexadecimal t = -143 / 256 := by
    have hhead : t.head? = some '-' := rfl
    have hnumber : Radix.hexadecimal.number (t.filterMap Digit.value?) = 36608 := by decide
    have hfour : places t = 4 := by decide
    rw [value, if_pos hhead, magnitude, hnumber, hfour, Radix.base]
    norm_num
  have hgrid : ∃ x : Binary64, x.isFinite = true ∧ x.toRat = value .hexadecimal t := by
    refine ⟨.finite true (143 * twoPow 1066) (representable_scaled (by decide) (by decide)), rfl, ?_⟩
    rw [hvalue, toRat_finite, if_pos rfl, scaled_div_one 143 (j := 8) rfl]
    norm_num
  have hlt : |value .hexadecimal t| < 2 ^ 128 := by
    rw [hvalue]
    norm_num
  obtain ⟨hfinite, hy, hback⟩ := written_in_normal_form (k := 4) rfl hread hgrid hlt (by decide)
  rw [hvalue] at hy
  have hnormal : normalForm t = ['-', '0', '.', '8', 'F'] := by decide +kernel
  have hwritten := hback 4 (by decide)
  rw [hnormal] at hwritten
  exact ⟨_, hread, hvalue, hgrid, hlt, by decide, by decide, hfinite, hy, hwritten⟩

end Binary64

end Positional
