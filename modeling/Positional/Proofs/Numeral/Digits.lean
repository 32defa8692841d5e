/-
  Positional.Proofs.Numeral.Digits — digits and the numbers they denote.

  `r.number ds` is the natural number that digits denote, the most significant of them first. The
  digits of a number denote it (`number_digits`), without leading zeros (`digits_eq_zero_or`). In the
  other direction leading zeros are lost, and nothing else (`digits_number`).

  The symbols of digits are read back in a row (`mapM_readDigit_symbol`), and characters that are
  read as digits are their symbols in upper case (`upperCase_of_mapM_readDigit`).
-/
import Mathlib.Data.Nat.Digits.Lemmas
import Positional.Numeral
import Positional.Proofs.Answer
import Positional.Text.UpperCase

namespace Positional

/-! ## (1) The number of digits -/

/-- The natural number that digits denote, the most significant first. -/
def Radix.number (r : Radix) (ds : List Nat) : Nat := Nat.ofDigits r.base ds.reverse

namespace Radix

variable (r : Radix)

theorem base_pos : 0 < r.base := Nat.lt_of_lt_of_le (by decide) r.two_le_base

theorem number_nil : r.number [] = 0 := rfl

theorem number_concat (ds : List Nat) (d : Nat) : r.number (ds ++ [d]) = r.number ds * r.base + d := by
  rw [number, List.reverse_append, List.reverse_singleton, List.singleton_append, Nat.ofDigits_cons, number]
  ring

theorem number_cons (d : Nat) (ds : List Nat) : r.number (d :: ds) = d * r.base ^ ds.length + r.number ds := by
  rw [number, Nat.ofDigits_reverse_cons, number]
  ring

variable {r} in
theorem number_lt {ds : List Nat} (h : ∀ d ∈ ds, d < r.base) : r.number ds < r.base ^ ds.length := by
  rw [number, ← List.length_reverse]
  exact Nat.ofDigits_lt_base_pow_length r.two_le_base fun d hd => h d (List.mem_reverse.mp hd)

theorem number_zero_cons (ds : List Nat) : r.number (0 :: ds) = r.number ds := Nat.ofDigits_reverse_zero_cons ds

theorem number_dropWhile (ds : List Nat) : r.number (ds.dropWhile (· == 0)) = r.number ds := by
  induction ds with
  | nil => rfl
  | cons d ds ih =>
    by_cases hd : d = 0
    · subst hd
      rw [List.dropWhile_cons_of_pos rfl, ih, number_zero_cons]
    · rw [List.dropWhile_cons_of_neg (by simpa using hd)]

end Radix

/-! ## (2) The digits of a number -/

namespace Numeral

variable {r : Radix}

theorem digits_zero : digits r 0 = [0] := by
  rw [digits, if_pos r.base_pos]

theorem digits_eq {n : Nat} (h : n ≠ 0) : digits r n = (Nat.digits r.base n).reverse := by
  fun_induction digits r n with
  | case1 n hlt => rw [Nat.digits_of_lt r.base n h hlt, List.reverse_singleton]
  | case2 n hge ih =>
    have hdiv : n / r.base ≠ 0 := Nat.ne_of_gt (Nat.div_pos (Nat.le_of_not_lt hge) r.base_pos)
    rw [ih hdiv, Nat.digits_def' r.two_le_base (Nat.pos_of_ne_zero h), List.reverse_cons]

theorem number_digits (n : Nat) : r.number (digits r n) = n := by
  by_cases h : n = 0
  · rw [h, digits_zero, Radix.number_zero_cons, Radix.number_nil]
  · rw [digits_eq h, Radix.number, List.reverse_reverse, Nat.ofDigits_digits]

theorem digits_ne_nil (n : Nat) : digits r n ≠ [] := by
  by_cases h : n = 0
  · rw [h, digits_zero]
    exact List.cons_ne_nil _ _
  · rw [digits_eq h]
    simpa [Nat.digits_eq_nil_iff_eq_zero] using h

/-- Only zero itself begins with a zero. -/
theorem digits_eq_zero_or (n : Nat) : digits r n = [0] ∨ (digits r n).head? ≠ some 0 := by
  by_cases h : n = 0
  · rw [h]
    exact Or.inl digits_zero
  · right
    rw [digits_eq h, List.head?_reverse, List.getLast?_eq_some_getLast (Nat.digits_ne_nil_iff_ne_zero.mpr h)]
    exact fun he => Nat.getLast_digit_ne_zero r.base h (Option.some.inj he)

theorem head?_dropWhile_ne (ds : List Nat) : (ds.dropWhile (· == 0)).head? ≠ some 0 := by
  intro h
  have := List.head?_dropWhile_not (· == 0) ds
  rw [h] at this
  simp at this

/-- The digits of what digits denote: these, without their leading zeros. -/
theorem digits_number {ds : List Nat} (hd : ∀ d ∈ ds, d < r.base) (h : r.number ds ≠ 0) :
    digits r (r.number ds) = ds.dropWhile (· == 0) := by
  have hlt : ∀ d ∈ (ds.dropWhile (· == 0)).reverse, d < r.base := fun d hm =>
    hd d ((List.dropWhile_sublist _).mem (List.mem_reverse.mp hm))
  rw [digits_eq h, ← Radix.number_dropWhile, Radix.number, Nat.digits_ofDigits r.base r.two_le_base _ hlt,
    List.reverse_reverse]
  intro hn he
  refine head?_dropWhile_ne ds ?_
  rw [← List.getLast?_reverse, List.getLast?_eq_some_getLast hn, he]

end Numeral

/-! ## (3) Symbols -/

namespace Digit

/-- The digits are ASCII characters, and each of them is a spelling of its symbol. -/
theorem of_value? {x : Char} {d : Nat} (h : value? x = some d) :
    x.toNat < 128 ∧ d < 16 ∧ upperChar x = [symbol d] := by
  have table : ∀ n : Fin 128, ∀ d ∈ value? (Char.ofNat n), d < 16 ∧ upperChar (Char.ofNat n) = [symbol d] := by
    decide +kernel
  have hlt : x.toNat < 128 := by
    simp only [value?, Bool.and_eq_true, decide_eq_true_eq] at h
    split at h
    · exact Nat.lt_of_le_of_lt (show x.toNat ≤ 57 from And.right ‹_›) (by decide)
    split at h
    · exact Nat.lt_of_le_of_lt (show x.toNat ≤ 102 from And.right ‹_›) (by decide)
    split at h
    · exact Nat.lt_of_le_of_lt (show x.toNat ≤ 70 from And.right ‹_›) (by decide)
    · cases h
  have hx := table ⟨x.toNat, hlt⟩
  rw [Char.ofNat_toNat] at hx
  exact ⟨hlt, hx d h⟩

theorem notMem_of_isDigit {t : Text} (h : ∀ x ∈ t, isDigit x = true) {x : Char} (hx : isDigit x = false) : x ∉ t :=
  fun hm => by rw [h x hm] at hx; cases hx

theorem symbol_eq_zero_iff {d : Nat} (h : d < 16) : symbol d = '0' ↔ d = 0 := by
  have table : ∀ d : Fin 16, symbol d = '0' ↔ d.val = 0 := by decide
  exact table ⟨d, h⟩

theorem dropWhile_symbol {ds : List Nat} (h : ∀ d ∈ ds, d < 16) :
    (ds.map symbol).dropWhile (· == '0') = (ds.dropWhile (· == 0)).map symbol := by
  induction ds with
  | nil => rfl
  | cons d ds ih =>
    have hd := symbol_eq_zero_iff (h d List.mem_cons_self)
    by_cases h0 : d = 0
    · rw [List.map_cons, List.dropWhile_cons_of_pos (by simpa using hd.mpr h0),
        List.dropWhile_cons_of_pos (by simpa using h0), ih fun e he => h e (List.mem_cons_of_mem d he)]
    · rw [List.map_cons, List.dropWhile_cons_of_neg (by simpa using fun he => h0 (hd.mp he)),
        List.dropWhile_cons_of_neg (by simpa using h0), List.map_cons]

end Digit

namespace Radix

variable {r : Radix} {t : Text} {ds : List Nat}

theorem readDigit_eq_ok {x : Char} {d : Nat} : r.readDigit x = .ok d ↔ Digit.value? x = some d ∧ d < r.base := by
  unfold readDigit
  constructor
  · intro h
    split at h
    · split at h
      · cases h
        exact ⟨‹_›, ‹_›⟩
      · cases h
    · cases h
  · intro ⟨h, hd⟩
    simp only [h, hd, if_true]

theorem mapM_readDigit_symbol (h : ∀ d ∈ ds, d < r.base) : (ds.map Digit.symbol).mapM r.readDigit = .ok ds := by
  rw [mapM_eq_ok, List.forall₂_map_left_iff, List.forall₂_same]
  exact fun d hd => readDigit_symbol (h d hd)

variable (h : t.mapM r.readDigit = .ok ds)

include h

theorem lt_base_of_mapM_readDigit : ∀ d ∈ ds, d < r.base := by
  have hf := mapM_eq_ok.mp h
  clear h
  induction hf with
  | nil => exact fun d hd => nomatch hd
  | cons hx _ ih =>
    intro d hd
    rcases List.mem_cons.mp hd with rfl | hd
    · exact (readDigit_eq_ok.mp hx).2
    · exact ih d hd

theorem isDigit_of_mapM_readDigit : ∀ x ∈ t, Digit.isDigit x = true := by
  have hf := mapM_eq_ok.mp h
  clear h
  induction hf with
  | nil => exact fun d hd => nomatch hd
  | cons hx _ ih =>
    intro x hm
    rcases List.mem_cons.mp hm with rfl | hm
    · rw [Digit.isDigit, (readDigit_eq_ok.mp hx).1]
      rfl
    · exact ih x hm

theorem upperCase_of_mapM_readDigit : t.upperCase = ds.map Digit.symbol := by
  have hf := mapM_eq_ok.mp h
  clear h
  induction hf with
  | nil => rfl
  | cons hx _ ih =>
    rw [Text.upperCase, List.flatMap_cons, (Digit.of_value? (readDigit_eq_ok.mp hx).1).2.2, ← Text.upperCase, ih]
    rfl

end Radix

/-- The characters of a number's digits are digits. -/
theorem Numeral.isDigit_symbol_digits (r : Radix) (n : Nat) :
    ∀ x ∈ (digits r n).map Digit.symbol, Digit.isDigit x = true :=
  Radix.isDigit_of_mapM_readDigit (Radix.mapM_readDigit_symbol (digits_lt r n))

end Positional
