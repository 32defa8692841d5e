/-
  Positional.Proofs.Expression.Fractions — what the fraction forms add to the grammar.

  A text reaches the fraction forms only if the grammar has no derivation for it, however many parts
  may be open (`closed_of_derives`). This leaves one form that has a value:

  - what stands in the parentheses of an enclosed text has no derivation either, or the whole
    would have one;
  - a text without a slash has a value only if it has a derivation (`derivation_of_evaluate`), so
    the parts of a quotient cannot both have one: the whole would be derived from them
    (`quotient_has_no_value`);
  - a mixed number is left, in any number of parentheses (`wrapped_of_evaluate`).
-/
import Positional.Expression
import Positional.Proofs.Expression.Context
import Positional.Proofs.Expression.MixedNumber
import Positional.Proofs.Expression.Opening

namespace Positional.Expression

open Cursor

variable {s : Setting} {language : Language} {t : Text}

/-! ## (1) One step of evaluation -/

/-- The blanks around a text do not count. -/
theorem evaluate_trim (s : Setting) (language : Language) (t : Text) : evaluate s language t.trim = evaluate s language t := by
  have h := Text.trim_trim t
  rw [evaluate, evaluate]
  generalize t.trim.trim = u at h
  subst h
  rfl

theorem evaluate_of_value {x : Binary64} (h : grammarValue s language t.trim = .ok x) :
    evaluate s language t = .ok x := by
  rw [evaluate]
  simp only [h]

theorem evaluate_of_closed {error : ExpressionError} (h : grammarValue s language t.trim = .error error)
    (hc : (language.fractions && leavesOpen error) = false) : evaluate s language t = .error error := by
  rw [evaluate]
  simp only [h, hc, Bool.false_eq_true, if_false]

section Open

variable {error : ExpressionError} (h : grammarValue s language t.trim = .error error)
  (ho : (language.fractions && leavesOpen error) = true)

include h ho

theorem evaluate_of_mixed {m : MixedNumber} (hf : FractionForm.ofText t.trim = .mixed m) :
    evaluate s language t = m.value.mapError .domain := by
  rw [evaluate]
  simp only [h, ho, if_true]
  split <;> simp_all

theorem evaluate_of_enclosed {inner : Text} (hf : FractionForm.ofText t.trim = .enclosed inner) :
    evaluate s language t = evaluate (s.beyond t.trim.length 0) language inner := by
  rw [evaluate]
  simp only [h, ho, if_true]
  split <;> simp_all

theorem evaluate_of_quotient {numerator denominator : Text}
    (hf : FractionForm.ofText t.trim = .quotient numerator denominator) :
    evaluate s language t = (do
      let x ← evaluate (s.beyond t.trim.length 0) language numerator
      let y ← evaluate (s.beyond t.trim.length 1) language denominator
      if y.isZero then .error (.domain .zeroDenominator) else .ok (x.div y)) := by
  rw [evaluate]
  simp only [h, ho, if_true]
  split <;> simp_all

theorem evaluate_of_crowded (hf : FractionForm.ofText t.trim = .crowded) :
    evaluate s language t = .error (.grammar .tooManySlashes) := by
  rw [evaluate]
  simp only [h, ho, if_true]
  split <;> simp_all

theorem evaluate_of_none (hf : FractionForm.ofText t.trim = .none) : evaluate s language t = .error error := by
  rw [evaluate]
  simp only [h, ho, if_true]
  split <;> simp_all

end Open

/-- A text that the grammar refuses has its value from its form. -/
theorem evaluate_cases {error : ExpressionError} {v : Binary64} (hg : grammarValue s language t.trim = .error error)
    (h : evaluate s language t = .ok v) : (language.fractions && leavesOpen error) = true ∧
      ((∃ m, FractionForm.ofText t.trim = .mixed m ∧ m.value = .ok v) ∨
        (∃ inner, FractionForm.ofText t.trim = .enclosed inner ∧
          evaluate (s.beyond t.trim.length 0) language inner = .ok v) ∨
        ∃ numerator denominator x y, FractionForm.ofText t.trim = .quotient numerator denominator ∧
          evaluate (s.beyond t.trim.length 0) language numerator = .ok x ∧
          evaluate (s.beyond t.trim.length 1) language denominator = .ok y) := by
  by_cases ho : (language.fractions && leavesOpen error) = true
  · refine ⟨ho, ?_⟩
    cases hf : FractionForm.ofText t.trim with
    | mixed m =>
      rw [evaluate_of_mixed hg ho hf] at h
      exact Or.inl ⟨m, rfl, mapError_eq_ok.mp h⟩
    | enclosed inner =>
      rw [evaluate_of_enclosed hg ho hf] at h
      exact Or.inr (Or.inl ⟨inner, rfl, h⟩)
    | quotient numerator denominator =>
      rw [evaluate_of_quotient hg ho hf] at h
      obtain ⟨x, hx, h⟩ := bind_eq_ok.mp h
      obtain ⟨y, hy, _⟩ := bind_eq_ok.mp h
      exact Or.inr (Or.inr ⟨numerator, denominator, x, y, rfl, hx, hy⟩)
    | crowded =>
      rw [evaluate_of_crowded hg ho hf] at h
      cases h
    | none =>
      rw [evaluate_of_none hg ho hf] at h
      cases h
  · rw [evaluate_of_closed hg (by simpa using ho)] at h
    cases h

/-! ## (2) Texts with a derivation -/

/-- What the grammar would derive, were there no limit, is not left to the fraction forms. -/
theorem closed_of_derives {m : Nat} {e : Expression} {d : Cursor} {error : ExpressionError}
    (h : Derives language.factorial m (.chain .sum) (Cursor.start t) e d) (hb : Blank d.rest)
    (hv : grammarValue s language t = .error error) : leavesOpen error = false := by
  cases error with
  | domain d => rfl
  | grammar f =>
    have hf := firstFault?_of_value hv
    rcases read_or_breaks h hb with hr | ⟨_, ⟨p, hp⟩, _⟩
    · rw [hr, isComplete_iff.mp (h.isComplete trivial)] at hf
      cases hf
    · rw [hp] at hf
      cases hf
      rfl

theorem derivation_of_value {v : Binary64} (h : grammarValue s language t.trim = .ok v) :
    ∃ e, Derivation language.factorial t e := by
  obtain ⟨lead, trail, hl, hr, ht⟩ := Text.exists_trim t
  have hd : Derivation language.factorial t.trim _ := read_iff.mpr ⟨rfl, isComplete_of_value h⟩
  rw [ht]
  exact hd.surrounded hl hr

/-- What is in parentheses has no derivation, or the whole would not be left to its form. -/
theorem not_derivation_of_enclosed {error : ExpressionError} {inner : Text} {e : Expression}
    (hg : grammarValue s language t.trim = .error error) (ho : leavesOpen error = true)
    (hf : FractionForm.ofText t.trim = .enclosed inner) : ¬ Derivation language.factorial inner e := by
  intro ⟨d, hd, hb⟩
  obtain ⟨e', d', hd', hb'⟩ := hd.enclosed hb
  rw [← FractionForm.ofText_eq_enclosed.mp hf] at hd'
  rw [closed_of_derives hd' hb' hg] at ho
  cases ho

theorem mem_of_mem_trim {x : Char} (h : x ∈ t.trim) : x ∈ t := by
  obtain ⟨lead, trail, _, _, ht⟩ := Text.exists_trim t
  rw [ht]
  exact List.mem_append_left _ (List.mem_append_right _ h)

/-- Without a slash, a text with a value has a derivation. -/
theorem derivation_of_evaluate {v : Binary64} (h : evaluate s language t = .ok v) (ht : '/' ∉ t) :
    ∃ e, Derivation language.factorial t e := by
  induction hn : t.length using Nat.strongRecOn generalizing s t with
  | ind n ih =>
    cases hg : grammarValue s language t.trim with
    | ok x => exact derivation_of_value hg
    | error error =>
      obtain ⟨ho, hcases⟩ := evaluate_cases hg h
      have hslash : '/' ∉ t.trim := fun hm => ht (mem_of_mem_trim hm)
      rcases hcases with ⟨m, hf, _⟩ | ⟨inner, hf, hi⟩ | ⟨numerator, denominator, x, y, hf, _, _⟩
      · obtain ⟨lead, u, trail, _, _, hu, _, gap, _, _, rfl⟩ :=
          MixedNumber.ofText?_eq_some_iff.mp (FractionForm.ofText_eq_mixed.mp hf)
        rw [hu] at hslash
        simp [MixedNumber.second] at hslash
      · have hlen := FractionForm.length_lt_of_enclosed hf
        have htrim := Text.length_trim_le t
        have hinner := FractionForm.ofText_eq_enclosed.mp hf
        have hmem : '/' ∉ inner := fun hm => hslash (by rw [hinner]; simp [hm])
        obtain ⟨e, he⟩ := ih inner.length (by omega) hi hmem rfl
        exact absurd he (not_derivation_of_enclosed hg (Bool.and_eq_true_iff.mp ho).2 hf)
      · rw [(FractionForm.ofText_eq_quotient hf).1] at hslash
        simp at hslash

/-! ## (3) Which texts have a value outside the grammar -/

/-- The parts of a quotient do not both have a value, whatever is drawn in them. -/
theorem quotient_has_no_value {error : ExpressionError} {numerator denominator : Text} {s₁ s₂ : Setting}
    {x y : Binary64} (hg : grammarValue s language t.trim = .error error) (ho : leavesOpen error = true)
    (hf : FractionForm.ofText t.trim = .quotient numerator denominator) :
    ¬ (evaluate s₁ language numerator = .ok x ∧ evaluate s₂ language denominator = .ok y) := by
  intro ⟨hx, hy⟩
  obtain ⟨ht, hn, hd⟩ := FractionForm.ofText_eq_quotient hf
  obtain ⟨e₁, h₁⟩ := derivation_of_evaluate hx hn
  obtain ⟨e₂, h₂⟩ := derivation_of_evaluate hy hd
  obtain ⟨e, d, he, hb⟩ := h₁.quotient h₂
  rw [← ht] at he
  rw [closed_of_derives he hb hg] at ho
  cases ho

/-- A value that is not the grammar's is that of a mixed number in parentheses. -/
theorem wrapped_of_evaluate {error : ExpressionError} {v : Binary64}
    (hg : grammarValue s language t.trim = .error error) (h : evaluate s language t = .ok v) :
    ∃ m k, MixedNumber.Wrapped m k t ∧ m.value = .ok v := by
  induction hn : t.length using Nat.strongRecOn generalizing s t error with
  | ind n ih =>
    obtain ⟨ho, hcases⟩ := evaluate_cases hg h
    have ho := (Bool.and_eq_true_iff.mp ho).2
    obtain ⟨lead, trail, hl, hr, ht⟩ := Text.exists_trim t
    rcases hcases with ⟨m, hf, hv⟩ | ⟨inner, hf, hi⟩ | ⟨numerator, denominator, x, y, hf, hx, hy⟩
    · obtain ⟨lead', u, trail', hl', hr', hu, hs⟩ :=
        MixedNumber.ofText?_eq_some_iff.mp (FractionForm.ofText_eq_mixed.mp hf)
      refine ⟨m, 0, ?_, hv⟩
      have hw := MixedNumber.Wrapped.bare (Text.blank_append hl hl') (Text.blank_append hr' hr) hs
      rw [ht, hu]
      simpa only [List.append_assoc] using hw
    · have hlen := FractionForm.length_lt_of_enclosed hf
      have htrim := Text.length_trim_le t
      cases hgi : grammarValue (s.beyond t.trim.length 0) language inner.trim with
      | ok x =>
        obtain ⟨e, he⟩ := derivation_of_value hgi
        exact absurd he (not_derivation_of_enclosed hg ho hf)
      | error error' =>
        obtain ⟨m, k, hw, hv⟩ := ih inner.length (by omega) hgi hi rfl
        refine ⟨m, k + 1, ?_, hv⟩
        rw [ht, FractionForm.ofText_eq_enclosed.mp hf]
        exact .layer hl hr hw
    · exact absurd ⟨hx, hy⟩ (quotient_has_no_value hg ho hf)

end Positional.Expression
