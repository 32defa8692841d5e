/-
  Positional.Proofs.Expression.MixedNumber — which texts are mixed numbers.

  A mixed number is written `-?digits blanks digits/digits` (`Spells`), with blanks around it
  (`ofText?_eq_some_iff`). Its value is computed from three numbers, each of which is the one
  that the digits are read as (`ofText?_digits`), and it has one unless the digits of
  the denominator are all zero (`value_eq`).

  `Wrapped m k t`: in `k` pairs of parentheses, the text `t` has the mixed number `m`.
-/
import Positional.Expression.Fraction
import Positional.Proofs.Binary64
import Positional.Proofs.Text.Classes
import Positional.Proofs.Text.Cuts

namespace Positional

namespace MixedNumber

open Text

/-! ## (1) The text -/

/-- The whole part with its sign. -/
def first (m : MixedNumber) : Text := if m.negative then '-' :: m.whole else m.whole

def second (m : MixedNumber) : Text := m.numerator ++ '/' :: m.denominator

/-- The parts are runs of digits. -/
def InDigits (m : MixedNumber) : Prop :=
  isDigits m.whole = true ∧ isDigits m.numerator = true ∧ isDigits m.denominator = true

def Spells (m : MixedNumber) (t : Text) : Prop :=
  m.InDigits ∧ ∃ gap, gap ≠ [] ∧ Blank gap ∧ t = m.first ++ gap ++ m.second

theorem not_mem_of_isDigits {t : Text} (h : isDigits t = true) {x : Char} (hx : x.isDigit = false) : x ∉ t := by
  intro hm
  rw [(isDigits_iff.mp h).2 x hm] at hx
  cases hx

theorem solid_of_isDigits {t : Text} (h : isDigits t = true) : Solid t := by
  obtain ⟨hn, hd⟩ := isDigits_iff.mp h
  exact ⟨hn, fun x hx => isBlank_of_isDigit (hd x hx)⟩

variable {m : MixedNumber}

theorem solid_first (h : m.InDigits) : Solid m.first := by
  have hw := solid_of_isDigits h.1
  unfold first
  split
  · exact hw.cons rfl
  · exact hw

theorem solid_second (h : m.InDigits) : Solid m.second := by
  have hn := solid_of_isDigits h.2.1
  have hd := solid_of_isDigits h.2.2
  refine ⟨by simp [second], fun x hx => ?_⟩
  rcases List.mem_append.mp hx with hx | hx
  · exact hn.2 x hx
  rcases List.mem_cons.mp hx with rfl | hx
  · rfl
  · exact hd.2 x hx

theorem words_of_spells {lead t trail : Text} (h : m.Spells t) (hl : Blank lead) (hr : Blank trail) :
    words (lead ++ t ++ trail) = [m.first, m.second] := by
  obtain ⟨hd, gap, hn, hg, rfl⟩ := h
  have h₂ : words (gap ++ m.second ++ trail) = [m.second] := by
    rw [words_word hg (solid_second hd), words_of_blank hr]
    intro x hx
    exact hr x (List.mem_of_mem_head? hx)
  have hne : ∀ x, (gap ++ m.second ++ trail).head? = some x → isBlank x = true := by
    intro x hx
    rw [List.append_assoc, List.head?_append, Option.or_of_isSome (by simpa using hn)] at hx
    exact hg x (List.mem_of_mem_head? hx)
  rw [← h₂, ← words_word hl (solid_first hd) hne]
  simp only [List.append_assoc]

/-- The sign is cut off a word in one way. -/
theorem cutSign_eq_iff {negative : Bool} {whole numerator denominator t : Text} (h : isDigits whole = true) :
    cutSign t = (negative, whole) ↔ t = first ⟨negative, whole, numerator, denominator⟩ := by
  have hm : '-' ∉ whole := not_mem_of_isDigits h rfl
  unfold cutSign
  split
  · rename_i u
    cases negative with
    | true => simp [first]
    | false =>
      simp only [first, Prod.mk.injEq, Bool.true_eq_false, false_and, Bool.false_eq_true, if_false, false_iff]
      intro hw
      exact hm (hw ▸ List.mem_cons_self)
  · rename_i hne
    cases negative with
    | true =>
      simp only [first, Prod.mk.injEq, Bool.false_eq_true, false_and, if_true, false_iff]
      exact fun hw => hne _ hw
    | false => simp [first]

/-- Mixed numbers are recognized in exactly the texts that spell them, with blanks around. -/
theorem ofText?_eq_some_iff {t : Text} :
    ofText? t = some m ↔ ∃ lead u trail, Blank lead ∧ Blank trail ∧ t = lead ++ u ++ trail ∧ m.Spells u := by
  constructor
  · intro h
    unfold ofText? at h
    split at h
    · rename_i a b hw
      obtain ⟨⟨negative, whole⟩, hp⟩ : ∃ p, cutSign a = p := ⟨_, rfl⟩
      rw [hp] at h
      dsimp only at h
      split at h
      · rename_i numerator denominator hc
        split at h
        · rename_i hd
          cases h
          simp only [Bool.and_eq_true] at hd
          have hdigits : InDigits ⟨negative, whole, numerator, denominator⟩ := ⟨hd.1.1, hd.1.2, hd.2⟩
          obtain ⟨lead, after, hl, ha, rfl, hbreak, hw⟩ := words_eq_cons_iff.mp hw
          obtain ⟨gap, trail, hg, hb, rfl, _, hw⟩ := words_eq_cons_iff.mp hw
          refine ⟨lead, a ++ gap ++ b, trail, hl, words_eq_nil_iff.mp hw, by simp only [List.append_assoc],
            hdigits, gap, ?_, hg, ?_⟩
          · intro hn
            subst hn
            obtain ⟨x, b, rfl⟩ := List.exists_cons_of_ne_nil hb.1
            have := hb.2 x List.mem_cons_self
            rw [hbreak x rfl] at this
            cases this
          · rw [(cutSign_eq_iff hd.1.1).mp hp, (cutAt?_eq_some hc).1]
            rfl
        · cases h
      · cases h
    · cases h
  · intro ⟨lead, u, trail, hl, hr, ht, hs⟩
    have hp : cutSign m.first = (m.negative, m.whole) := (cutSign_eq_iff hs.1.1).mpr rfl
    have hc : cutAt? '/' m.second = some (m.numerator, m.denominator) :=
      cutAt?_append (not_mem_of_isDigits hs.1.2.1 rfl) _
    simp only [ofText?, ht, words_of_spells hs hl hr, hp, hc, hs.1.1, hs.1.2.1, hs.1.2.2, Bool.and_self, if_true]

/-! ## (2) Parentheses around it -/

/-- In `k` pairs of parentheses, with blanks inside and outside of each, stands the mixed number `m`. -/
inductive Wrapped (m : MixedNumber) : Nat → Text → Prop
  | bare {lead t trail : Text} : Blank lead → Blank trail → m.Spells t → Wrapped m 0 (lead ++ t ++ trail)
  | layer {k : Nat} {lead inner trail : Text} : Blank lead → Blank trail → Wrapped m k inner →
      Wrapped m (k + 1) (lead ++ '(' :: (inner ++ [')']) ++ trail)

theorem trimmed_of_spells {t : Text} (h : m.Spells t) : Trimmed t := by
  obtain ⟨hd, gap, _, _, rfl⟩ := h
  refine ⟨fun x hx => (solid_first hd).2 x ?_, fun x hx => (solid_second hd).2 x ?_⟩
  · rw [List.append_assoc, List.head?_append, Option.or_of_isSome (by simpa using (solid_first hd).1)] at hx
    exact List.mem_of_mem_head? hx
  · rw [List.getLast?_append, Option.or_of_isSome (by simpa using (solid_second hd).1)] at hx
    exact List.mem_of_getLast? hx

theorem trimmed_parentheses (inner : Text) : Trimmed ('(' :: (inner ++ [')'])) := by
  refine ⟨fun x hx => ?_, fun x hx => ?_⟩
  · cases hx
    rfl
  · rw [← List.cons_append, List.getLast?_concat] at hx
    cases hx
    rfl

/-- A mixed number starts with a sign or a digit. -/
theorem ofText?_parenthesis (t : Text) : ofText? ('(' :: t) = none := by
  rw [Option.eq_none_iff_forall_ne_some]
  intro m h
  obtain ⟨lead, u, trail, hl, _, ht, hd, gap, _, _, rfl⟩ := ofText?_eq_some_iff.mp h
  cases lead with
  | cons x lead =>
    have := hl x List.mem_cons_self
    rw [← (List.cons.inj ht).1] at this
    cases this
  | nil =>
    have hm : '(' ∈ m.first := by
      have hh := congrArg List.head? ht
      simp only [List.nil_append, List.append_assoc, List.head?_append,
        Option.or_of_isSome (show m.first.head?.isSome from by simpa using (solid_first hd).1)] at hh
      exact List.mem_of_mem_head? hh.symm
    unfold first at hm
    split at hm
    · rcases List.mem_cons.mp hm with hm | hm
      · cases hm
      · exact not_mem_of_isDigits hd.1 rfl hm
    · exact not_mem_of_isDigits hd.1 rfl hm

/-! ## (3) The value -/

/-- The digits are read as the number that is computed with. -/
theorem ofText?_digits {t : Text} (h : isDigits t = true) : Binary64.ofText? t = some (ofDigits t) := by
  obtain ⟨hn, hd⟩ := isDigits_iff.mp h
  have ht : (t ++ []).takeWhile Char.isDigit = t ++ [] := List.takeWhile_append_of_pos hd
  have hr : (t ++ []).dropWhile Char.isDigit = [] := List.dropWhile_append_of_pos hd
  rw [List.append_nil] at ht hr
  have he : t.isEmpty = false := by simpa using hn
  simp [Binary64.ofText?, Binary64.readDecimal?, Binary64.readExponent?, ht, hr, he, ofDigits]

/-- The whole number plus the quotient, each step rounded, and the sign last. -/
def total (m : MixedNumber) : Binary64 :=
  let magnitude := (ofDigits m.whole).add ((ofDigits m.numerator).div (ofDigits m.denominator))
  if m.negative then magnitude.neg else magnitude

theorem value_eq (m : MixedNumber) :
    m.value = if m.denominator.decimalValue = 0 then .error .zeroDenominator else .ok m.total := by
  have hz : (ofDigits m.denominator).isZero = true ↔ m.denominator.decimalValue = 0 := Binary64.isZero_ofDecimal
  unfold value
  by_cases h : m.denominator.decimalValue = 0
  · simp [hz.mpr h, h]
  · have : (ofDigits m.denominator).isZero = false := by simpa [h] using hz
    simp [this, h, total]

end MixedNumber

namespace FractionForm

/-! ## (4) The form of a text -/

theorem inner?_eq_some_iff {t inner : Text} : inner? t = some inner ↔ t = '(' :: (inner ++ [')']) := by
  constructor
  · intro h
    unfold inner? at h
    split at h
    · rename_i u
      split at h
      · rename_i hl
        cases h
        obtain ⟨v, rfl⟩ := List.getLast?_eq_some_iff.mp hl
        rw [List.dropLast_concat]
      · cases h
    · cases h
  · intro h
    subst h
    simp [inner?]

theorem ofText_eq_mixed {t : Text} {m : MixedNumber} : ofText t = mixed m ↔ MixedNumber.ofText? t = some m := by
  unfold ofText
  cases MixedNumber.ofText? t with
  | some m' => simp
  | none =>
    simp only [reduceCtorEq, iff_false]
    split
    · simp
    · split
      · split <;> simp
      · simp

theorem ofText_eq_enclosed {t inner : Text} : ofText t = enclosed inner ↔ t = '(' :: (inner ++ [')']) := by
  rw [← inner?_eq_some_iff]
  unfold ofText
  constructor
  · intro h
    split at h
    · cases h
    · split at h
      · rename_i hi
        cases h
        exact hi
      · split at h
        · split at h <;> cases h
        · cases h
  · intro h
    rw [h, inner?_eq_some_iff.mp h, MixedNumber.ofText?_parenthesis]

/-- The only slash of the text stands between the parts of a quotient. -/
theorem ofText_eq_quotient {t numerator denominator : Text} (h : ofText t = quotient numerator denominator) :
    t = numerator ++ '/' :: denominator ∧ '/' ∉ numerator ∧ '/' ∉ denominator := by
  unfold ofText at h
  split at h
  · cases h
  · split at h
    · cases h
    · split at h
      · rename_i hc
        split at h
        · cases h
        · rename_i hd
          cases h
          obtain ⟨ht, hn⟩ := Text.cutAt?_eq_some hc
          exact ⟨ht, hn, by simpa using hd⟩
      · cases h

end FractionForm

end Positional
