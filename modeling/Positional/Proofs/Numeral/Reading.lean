/-
  Positional.Proofs.Numeral.Reading — which number digits are read as.

  Text that spells a sign and digits around a point is read as the sum of its two sides
  (`read_spelling`). Both sides are computed digit by digit in 64-bit arithmetic, so their values are
  followed from the last digit back:

  - the whole part is exact if the number of every prefix of its digits is on the grid
    (`measures_wholeValue`);
  - in a radix that is a power of two the sum of the fraction is exact as long as the weights
    stay below 2^1024 (`measures_fractionValue`). Cutting digits off leaves a number on the grid
    there.

  So numerals are read as the number they denote in two cases: whole numbers up to 2^53 in every
  radix (`read_whole`), and numbers on the grid in the radices that are powers of two
  (`read_numeral`).
-/
import Positional.Numeral.Read
import Positional.Proofs.Numeral.Written

namespace Positional

open Binary64

namespace Numeral

variable {r : Radix}

/-! ## (1) The text -/

/-- A sign, and characters around a point. -/
def spelling (negative : Bool) (whole fraction : Text) : Text :=
  (if negative then ['-'] else []) ++ whole ++ if fraction.isEmpty then [] else '.' :: fraction

theorem text_eq (n : Numeral) :
    n.text = spelling n.negative (n.whole.map Digit.symbol) (n.fraction.map Digit.symbol) := by
  simp [text, spelling]

theorem point_notMem_signed (negative : Bool) {whole : Text} (hw : '.' ∉ whole) :
    '.' ∉ (if negative then ['-'] else []) ++ whole := by
  cases negative <;> simpa using hw

def withSign (negative : Bool) (x : Binary64) : Binary64 := if negative then x.neg else x

section Sides

variable {whole fraction : Text} (hw : '.' ∉ whole)

include hw

theorem splitOnP_of_notMem : whole.splitOnP (· == '.') = [whole] :=
  List.splitOnP_eq_singleton fun _ hx => beq_eq_false_iff_ne.mpr fun he => hw (he ▸ hx)

theorem splitOnP_point (rest : Text) :
    (whole ++ '.' :: rest).splitOnP (· == '.') = whole :: rest.splitOnP (· == '.') := by
  rw [List.splitOnP_append_cons _ _ (by rfl), splitOnP_of_notMem hw]
  rfl

theorem sides?_of_notMem : sides? whole = if whole.isEmpty then none else some (whole, []) := by
  rw [sides?, splitOnP_of_notMem hw]

theorem sides?_point (hf : '.' ∉ fraction) : sides? (whole ++ '.' :: fraction) =
    if whole.isEmpty && fraction.isEmpty then none else some (whole, fraction) := by
  rw [sides?, splitOnP_point hw, splitOnP_of_notMem hf]

end Sides

section

variable {whole fraction : Text} (hne : whole ≠ []) (hw : ∀ x ∈ whole, Digit.isDigit x = true)

include hne hw

theorem splitSign_spelling (negative : Bool) :
    splitSign (spelling negative whole fraction) = (negative, spelling false whole fraction) := by
  cases negative with
  | true => rfl
  | false =>
    obtain ⟨x, whole, rfl⟩ := List.exists_cons_of_ne_nil hne
    have hx : x ≠ '-' := by
      intro hx
      have := hw x List.mem_cons_self
      rw [hx] at this
      cases this
    unfold splitSign
    split
    · rename_i ht
      exact absurd (List.cons.inj ht).1 hx
    · rfl

theorem sides?_spelling (hf : ∀ x ∈ fraction, Digit.isDigit x = true) :
    sides? (spelling false whole fraction) = some (whole, fraction) := by
  have hwhole : whole.isEmpty = false := by simpa using hne
  cases fraction with
  | nil => simp [spelling, sides?_of_notMem (Digit.notMem_of_isDigit hw rfl), hwhole]
  | cons x fraction => simp [spelling, sides?_point (Digit.notMem_of_isDigit hw rfl) (Digit.notMem_of_isDigit hf rfl)]

end

/-- The sides of the point are read apart from each other. -/
theorem read_spelling (negative : Bool) {whole fraction : Text} {ds fs : List Nat} (hne : whole ≠ [])
    (hw : whole.mapM r.readDigit = .ok ds) (hf : fraction.mapM r.readDigit = .ok fs) :
    read r (spelling negative whole fraction) =
      .ok (withSign negative ((wholeValue r ds).add (fractionValue r fs))) := by
  have hdw := Radix.isDigit_of_mapM_readDigit hw
  have hdf := Radix.isDigit_of_mapM_readDigit hf
  simp only [read, splitSign_spelling hne hdw, sides?_spelling hne hdw hdf, hw, hf]
  rfl

theorem withSign_of_measures (negative : Bool) {x : Binary64} {u : Nat} (hx : x.Measures u) :
    ∃ h, withSign negative x = .finite negative u h := by
  obtain ⟨h, rfl⟩ := hx
  refine ⟨h, ?_⟩
  cases negative <;> rfl

/-! ## (2) The whole part -/

theorem measures_digit {d : Nat} (h : d < r.base) : (Binary64.ofNat d).Measures (d * one) := by
  have hd : d ≤ twoPow 53 := Nat.le_trans (Nat.le_of_lt h) (Nat.le_trans r.base_le (by decide))
  exact measures_ofNat (representable_ofNat hd)

theorem wholeValue_concat (ds : List Nat) (d : Nat) :
    wholeValue r (ds ++ [d]) = ((wholeValue r ds).mul (.ofNat r.base)).add (.ofNat d) := by
  rw [wholeValue, List.foldl_append]
  rfl

/-- Nothing is rounded if a property that keeps numbers on the grid holds of all prefixes. -/
theorem measures_wholeValue {P : Nat → Prop} (hgrid : ∀ n, P n → Representable (n * one))
    (hinits : ∀ n d, d < r.base → P (n * r.base + d) → P (n * r.base) ∧ P n) {ds : List Nat}
    (hd : ∀ d ∈ ds, d < r.base) (h : P (r.number ds)) : (wholeValue r ds).Measures (r.number ds * one) := by
  induction ds using List.reverseRecOn with
  | nil => simpa [wholeValue, Radix.number_nil] using measures_zero
  | append_singleton ds d ih =>
    have hlast : d < r.base := hd d (List.mem_append_right _ (List.mem_singleton.mpr rfl))
    rw [Radix.number_concat] at h ⊢
    obtain ⟨hshift, hinit⟩ := hinits _ d hlast h
    have hmul := (ih (fun e he => hd e (List.mem_append_left _ he)) hinit).mul
      (measures_ofNat (representable_base r)) (hgrid _ hshift) (by ring)
    have hsum : r.number ds * r.base * one + d * one = (r.number ds * r.base + d) * one := by ring
    have hadd := hmul.add (measures_digit hlast) (by rw [hsum]; exact hgrid _ h)
    rwa [hsum, ← wholeValue_concat] at hadd

/-- On the grid a whole number keeps its place when its last digit is cut off, in a radix without rounding. -/
theorem representable_prefix {k n d : Nat} (hk : r.base = twoPow k) (hd : d < r.base)
    (h : Representable ((n * r.base + d) * one)) : Representable (n * r.base * one) ∧ Representable (n * one) := by
  rw [hk] at hd h ⊢
  have hcut : (n * twoPow k + d) * one / twoPow (k + 1074) = n := by
    rw [twoPow_add, ← one, Nat.mul_div_mul_right _ _ Binary64.one_pos, Nat.mul_comm n, Nat.mul_add_div (twoPow_pos k),
      Nat.div_eq_of_lt hd, Nat.add_zero]
  have hshift : Representable (n * twoPow k * one) := by
    have := representable_cut h (k + 1074)
    rwa [hcut, twoPow_add, ← Nat.mul_assoc] at this
  refine ⟨hshift, Representable.unscale (k := k) ?_⟩
  rwa [Nat.mul_right_comm]

/-! ## (3) The fraction -/

/-- The weight of the digit at an index behind the point, counted from zero. -/
def weight (r : Radix) : Nat → Binary64
  | 0 => .ofNat r.base
  | n + 1 => (weight r n).mul (.ofNat r.base)

theorem fractionSum_concat (ds : List Nat) (d n : Nat) (sum : Binary64) :
    fractionSum r (ds ++ [d]) (weight r n) sum =
      (fractionSum r ds (weight r n) sum).add ((Binary64.ofNat d).div (weight r (n + ds.length))) := by
  induction ds generalizing n sum with
  | nil => rfl
  | cons e ds ih =>
    have hn : n + (e :: ds).length = n + 1 + ds.length := by rw [List.length_cons, Nat.add_right_comm, Nat.add_assoc]
    rw [hn]
    exact ih (n + 1) _

theorem fractionValue_concat (ds : List Nat) (d : Nat) :
    fractionValue r (ds ++ [d]) = (fractionValue r ds).add ((Binary64.ofNat d).div (weight r ds.length)) := by
  have h := fractionSum_concat (r := r) ds d 0 (.zero false)
  rwa [Nat.zero_add] at h

variable {k : Nat}

/-- The units in one, told from the last of `n` places. -/
theorem one_eq_pow_mul (hk : r.base = twoPow k) {n : Nat} (h : k * n ≤ 1074) :
    one = r.base ^ n * twoPow (1074 - k * n) := by
  rw [hk, twoPow_eq, ← pow_mul, ← twoPow_eq, ← twoPow_add, Nat.add_sub_cancel' h, one]

theorem measures_weight (hk : r.base = twoPow k) (n : Nat) (h : k * (n + 1) ≤ 1023) :
    (weight r n).Measures (twoPow (k * (n + 1)) * one) := by
  induction n with
  | zero =>
    rw [Nat.zero_add, Nat.mul_one, ← hk]
    exact measures_ofNat (representable_base r)
  | succ n ih =>
    have hsucc : k * (n + 1 + 1) = k * (n + 1) + k := Nat.mul_succ k (n + 1)
    have hgrid : Representable (twoPow (k * (n + 1 + 1)) * one) := by
      rw [one, ← twoPow_add]
      exact representable_twoPow (by omega)
    refine (ih (by omega)).mul (measures_ofNat (representable_base r)) hgrid ?_
    rw [hk, hsucc, twoPow_add]
    ring

/-- One more digit: the sum so far and the digit over its weight, in the units of the new digit. -/
theorem measures_fractionValue (hk : r.base = twoPow k) {ds : List Nat} (hd : ∀ d ∈ ds, d < r.base)
    (hlen : k * ds.length ≤ 1023) (h : Representable (r.number ds * twoPow (1074 - k * ds.length))) :
    (fractionValue r ds).Measures (r.number ds * twoPow (1074 - k * ds.length)) := by
  induction ds using List.reverseRecOn with
  | nil => simpa [fractionValue, fractionSum, Radix.number_nil] using measures_zero
  | append_singleton ds d ih =>
    have hlast : d < r.base := hd d (List.mem_append_right _ (List.mem_singleton.mpr rfl))
    have hsucc : k * (ds ++ [d]).length = k * (ds.length + 1) := by rw [List.length_append, List.length_singleton]
    have hmul : k * (ds.length + 1) = k * ds.length + k := Nat.mul_succ k ds.length
    rw [hsucc] at hlen h ⊢
    obtain ⟨g, hg⟩ : ∃ g, 1074 - k * (ds.length + 1) = g := ⟨_, rfl⟩
    have hg' : 1074 - k * ds.length = g + k := by omega
    have hsplit : r.number (ds ++ [d]) * twoPow g = r.number ds * twoPow (g + k) + d * twoPow g := by
      rw [Radix.number_concat, twoPow_add, hk]
      ring
    rw [hg] at h ⊢
    -- the sum so far is what is left when the new digit is cut off
    have hcut : r.number (ds ++ [d]) * twoPow g / twoPow (g + k) = r.number ds := by
      rw [twoPow_add, Nat.mul_comm (twoPow g), Nat.mul_div_mul_right _ _ (twoPow_pos g), Radix.number_concat, hk,
        Nat.mul_comm, Nat.mul_add_div (twoPow_pos k), Nat.div_eq_of_lt (hk ▸ hlast), Nat.add_zero]
    have hinit : Representable (r.number ds * twoPow (g + k)) := by
      have := representable_cut h (g + k)
      rwa [hcut] at this
    have hsum := ih (fun e he => hd e (List.mem_append_left _ he)) (by omega) (by rw [hg']; exact hinit)
    rw [hg'] at hsum
    have hquotient : ((Binary64.ofNat d).div (weight r ds.length)).Measures (d * twoPow g) := by
      refine (measures_digit hlast).div (measures_weight hk _ hlen) (Nat.mul_pos (twoPow_pos _) Binary64.one_pos) ?_ ?_
      · exact representable_scaled (Nat.lt_of_lt_of_le hlast (Nat.le_trans r.base_le (by decide))) (by omega)
      · have hone : one = twoPow g * twoPow (k * (ds.length + 1)) := by
          rw [← twoPow_add, one]
          congr 1
          omega
        nth_rewrite 1 [hone]
        ring
    have hadd := hsum.add hquotient (by rw [← hsplit]; exact h)
    rwa [← hsplit, ← fractionValue_concat] at hadd

/-! ## (4) Numerals -/

section

variable (hk : r.base = twoPow k) {ds fs : List Nat} (hd : ∀ d ∈ ds ++ fs, d < r.base)

include hk hd

/-- The units of a numeral: its whole part, and a fraction that is less than one. -/
theorem units_sides (hlen : k * fs.length ≤ 1074) {u : Nat}
    (hu : u = r.number ds * one + r.number fs * twoPow (1074 - k * fs.length)) :
    u / one = r.number ds ∧ u % one = r.number fs * twoPow (1074 - k * fs.length) := by
  have hlt : r.number fs * twoPow (1074 - k * fs.length) < one := by
    rw [one_eq_pow_mul hk hlen]
    exact Nat.mul_lt_mul_of_pos_right (Radix.number_lt fun d hm => hd d (List.mem_append_right _ hm)) (twoPow_pos _)
  constructor
  · rw [hu, Nat.add_comm, Nat.add_mul_div_right _ _ Binary64.one_pos, Nat.div_eq_of_lt hlt, Nat.zero_add]
  · rw [hu, Nat.mul_add_mod_self_right, Nat.mod_eq_of_lt hlt]

/-- The sides of a numeral have an exact sum if it is on the grid: then each of them is. -/
theorem measures_sides (hlen : k * fs.length ≤ 1023) {u : Nat}
    (hu : u = r.number ds * one + r.number fs * twoPow (1074 - k * fs.length)) (h : Representable u) :
    ((wholeValue r ds).add (fractionValue r fs)).Measures u := by
  obtain ⟨hdiv, hmod⟩ := units_sides hk hd (Nat.le_trans hlen (by decide)) hu
  have hwhole := representable_whole h
  rw [hdiv] at hwhole
  have hfraction := representable_mod h representable_one
  rw [hmod] at hfraction
  have hw := measures_wholeValue (P := fun m => Representable (m * one)) (fun _ hm => hm)
    (fun m d hlt hm => representable_prefix hk hlt hm) (fun d hm => hd d (List.mem_append_left _ hm)) hwhole
  have hf := measures_fractionValue hk (fun d hm => hd d (List.mem_append_right _ hm)) hlen hfraction
  have hsum := hw.add hf (by rw [← hu]; exact h)
  rw [← hu] at hsum
  exact hsum

end

/-- Whole numbers up to 2^53 are read in every radix, in either letter case and with leading zeros. -/
theorem read_whole (negative : Bool) {t : Text} {ds : List Nat} (hne : t ≠ []) (ht : t.mapM r.readDigit = .ok ds)
    (hle : r.number ds ≤ twoPow 53) :
    ∃ h, read r (spelling negative t []) = .ok (.finite negative (r.number ds * one) h) := by
  have hwhole := measures_wholeValue (P := (· ≤ twoPow 53)) (fun n hn => representable_ofNat hn)
    (fun n d _ hn => ⟨by omega, Nat.le_trans (Nat.le_mul_of_pos_right n r.base_pos) (by omega)⟩)
    (Radix.lt_base_of_mapM_readDigit ht) hle
  have hsum := hwhole.add measures_zero (by rw [Nat.add_zero]; exact representable_ofNat hle)
  rw [Nat.add_zero] at hsum
  obtain ⟨h, hx⟩ := withSign_of_measures negative hsum
  refine ⟨h, ?_⟩
  rw [read_spelling negative hne ht List.mapM_nil, ← hx]
  rfl

theorem read_digits (r : Radix) (negative : Bool) {n : Nat} (hn : n ≤ twoPow 53) :
    ∃ h, read r (spelling negative ((digits r n).map Digit.symbol) []) = .ok (.finite negative (n * one) h) := by
  have hne : (digits r n).map Digit.symbol ≠ [] := by simpa using digits_ne_nil (r := r) n
  have hread := read_whole negative hne (Radix.mapM_readDigit_symbol (digits_lt r n))
  rw [number_digits] at hread
  exact hread hn

/-- In a radix that is a power of two, a numeral of a number on the grid is read as this number. -/
theorem read_numeral (hk : r.base = twoPow k) {n : Numeral} (hne : n.whole ≠ [])
    (hd : ∀ d ∈ n.whole ++ n.fraction, d < r.base) (hlen : k * n.fraction.length ≤ 1023) {u : Nat}
    (hu : u = r.number n.whole * one + r.number n.fraction * twoPow (1074 - k * n.fraction.length))
    (h : Representable u) : read r n.text = .ok (.finite n.negative u h) := by
  obtain ⟨_, hx⟩ := withSign_of_measures n.negative (measures_sides hk hd hlen hu h)
  rw [text_eq, read_spelling n.negative (by simpa using hne)
    (Radix.mapM_readDigit_symbol fun d hm => hd d (List.mem_append_left _ hm))
    (Radix.mapM_readDigit_symbol fun d hm => hd d (List.mem_append_right _ hm)), hx]

end Numeral

end Positional
