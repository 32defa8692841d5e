/-
  Positional.Proofs.Expression.Finite — which values are finite.

  Every operation of the grammar answers a finite number or an error, whatever the elementary
  functions and the power answer:

  - what leaves the range is caught by `checked`, in literals too, or by the check of a function;
  - the remainder, the change of sign and the factorial are not checked. A remainder is taken by
    a number that is not zero, and a factorial is a 64-bit word.

  So the grammar has finite values only (`isFinite_of_value`). The fraction forms check nothing:
  what is not finite is the value of a mixed number (`infinite_values_are_mixed_numbers`).
-/
import Positional.Proofs.Expression.Wrapped

namespace Positional

open Binary64

/-! ## (1) Operations -/

theorem isFinite_of_checked {x y : Binary64} (h : checked x = .ok y) : y.isFinite = true := by
  unfold checked at h
  split at h
  · rename_i hx
    cases h
    exact hx
  · cases h

theorem isFinite_of_raise {lib : Elementary} {x y z : Binary64} (h : raise lib x y = .ok z) : z.isFinite = true := by
  unfold raise at h
  split at h
  · cases h
  · dsimp only at h
    split at h
    · cases h
    · exact isFinite_of_checked h

/-- Only the remainder needs that its operands are finite. -/
theorem Operator.isFinite_of_apply {lib : Elementary} {op : Operator} {x y z : Binary64} (hx : x.isFinite = true)
    (hy : y.isFinite = true) (h : op.apply lib x y = .ok z) : z.isFinite = true := by
  cases op with
  | add | subtract | multiply => exact isFinite_of_checked h
  | power => exact isFinite_of_raise h
  | divide =>
    simp only [apply] at h
    split at h
    · cases h
    · exact isFinite_of_checked h
  | remainder =>
    simp only [apply] at h
    split at h
    · cases h
    · rename_i h0
      cases h
      exact isFinite_rem hx hy (by simpa using h0)

theorem Function.isFinite_of_apply {lib : Elementary} {f : Function} {x y : Binary64} (h : f.apply lib x = .ok y) :
    y.isFinite = true := by
  simp only [apply] at h
  split at h
  · rename_i hf
    cases h
    exact hf
  · cases h

/-- A factorial is a signed 64-bit word, wrapped around or not. -/
theorem isFinite_of_factorial {x y : Binary64} (h : factorial x = .ok y) : y.isFinite = true := by
  unfold factorial at h
  split at h
  · cases h
  · rw [← Except.ok.inj h]
    refine isFinite_ofInt ?_
    have hlt := (multiplyUp (wordPart x - 1) 2 1).toInt_lt
    have hle := (multiplyUp (wordPart x - 1) 2 1).le_toInt
    have hpow : twoPow 63 = 9223372036854775808 := by decide
    omega

theorem Constant.isFinite_value (chance : Chance) (c : Constant) (position : Nat) :
    (c.value chance position).isFinite = true := by
  cases c with
  | pi => rfl
  | euler => rfl
  | random => exact isFinite_ofRatio (Nat.le_of_lt (chance position).isLt)

/-! ## (2) Expressions -/

namespace Expression

theorem isFinite_of_value {s : Setting} {e : Expression} {x : Binary64} (h : e.value s = .ok x) :
    x.isFinite = true := by
  induction e generalizing x with
  | number y => exact isFinite_of_checked (mapError_eq_ok.mp h)
  | constant c position =>
    cases h
    exact c.isFinite_value s.chance position
  | call f e _ =>
    obtain ⟨y, _, h⟩ := bind_eq_ok.mp h
    exact Function.isFinite_of_apply (mapError_eq_ok.mp h)
  | negation e ih =>
    obtain ⟨y, hy, h⟩ := bind_eq_ok.mp h
    cases h
    exact isFinite_neg (ih hy)
  | factorial e _ =>
    obtain ⟨y, _, h⟩ := bind_eq_ok.mp h
    exact isFinite_of_factorial (mapError_eq_ok.mp h)
  | binary op left right ihl ihr =>
    obtain ⟨y, hy, h⟩ := bind_eq_ok.mp h
    obtain ⟨z, hz, h⟩ := bind_eq_ok.mp h
    exact Operator.isFinite_of_apply (ihl hy) (ihr hz) (mapError_eq_ok.mp h)
  | fault => cases h
  | faultAfter e error _ =>
    obtain ⟨y, _, h⟩ := bind_eq_ok.mp h
    cases h

/-! ## (3) Texts -/

/-- The grammar has finite values only, and so has the language without the fraction forms. With them a
value that is not finite is that of a mixed number in parentheses, which the grammar refuses. -/
theorem infinite_values_are_mixed_numbers (s : Setting) (language : Language) (t : Text) :
    (∀ x, grammarValue s language t = .ok x → x.isFinite = true) ∧
      (language.fractions = false → ∀ x, evaluate s language t = .ok x → x.isFinite = true) ∧
      ∀ x, evaluate s language t = .ok x → x.isFinite = false →
        (∃ e, grammarValue s language t.trim = .error (.grammar e)) ∧
          ∃ m k, MixedNumber.Wrapped m k t ∧ m.value = .ok x := by
  have grammatical {x : Binary64} (h : evaluate s language t = .ok x) :
      x.isFinite = true ∨ ∃ error, grammarValue s language t.trim = .error error ∧
        (language.fractions && leavesOpen error) = true := by
    cases hg : grammarValue s language t.trim with
    | ok y =>
      rw [evaluate_of_value hg] at h
      cases h
      exact Or.inl (isFinite_of_value hg)
    | error error => exact Or.inr ⟨error, rfl, (evaluate_cases hg h).1⟩
  refine ⟨fun x h => isFinite_of_value h, fun hf x h => ?_, fun x h hx => ?_⟩
  · rcases grammatical h with hx | ⟨error, _, ho⟩
    · exact hx
    · rw [hf] at ho
      cases ho
  · rcases grammatical h with hfinite | ⟨error, hg, ho⟩
    · rw [hx] at hfinite
      cases hfinite
    · refine ⟨?_, wrapped_of_evaluate hg h⟩
      cases error with
      | grammar e => exact ⟨e, hg⟩
      | domain d =>
        rw [leavesOpen, Bool.and_false] at ho
        cases ho

/-- One is finite in both languages; with a numerator of four hundred digits the value is infinite. -/
theorem infinite_values_are_mixed_numbers_four_hundred_digits :
    let s : Setting := ⟨⟨fun _ x => x, fun x _ => x⟩, fun _ => ⟨0, twoPow_pos 53⟩⟩
    let m : MixedNumber := ⟨false, ['1'], List.replicate 400 '9', ['1']⟩
    let t : Text := m.first ++ [' '] ++ m.second
    (∃ x, grammarValue s .radixTool ['1'] = .ok x ∧ evaluate s .radixTool ['1'] = .ok x ∧ x.isFinite = true) ∧
      evaluate s .full t = .ok m.total ∧ m.total.isFinite = false ∧
      (∃ e, grammarValue s .full t.trim = .error (.grammar e)) ∧
      ∃ m' k, MixedNumber.Wrapped m' k t ∧ m'.value = .ok m.total := by
  intro s m t
  obtain ⟨x, hx⟩ : ∃ x, grammarValue s .radixTool ['1'] = .ok x := failure?_eq_none.mp (by decide +kernel)
  have hx' : evaluate s .radixTool ['1'] = .ok x := evaluate_of_value hx
  have hspells : m.Spells t :=
    ⟨⟨by decide +kernel, by decide +kernel, by decide +kernel⟩, [' '], by decide, by simp [Blank, isBlank], rfl⟩
  have hw : m.Wrapped 0 ([] ++ t ++ []) := .bare Text.blank_nil Text.blank_nil hspells
  rw [List.append_nil, List.nil_append] at hw
  have hg : grammarValue s .full t.trim = .error (.grammar (.unexpectedCharacter '9' 2)) :=
    failure?_eq_some.mp (by decide +kernel)
  have hv : evaluate s .full t = .ok m.total := by
    rw [MixedNumber.evaluate_wrapped hw rfl hg (fun _ h => by cases h), MixedNumber.value_eq, if_neg (by decide)]
    rfl
  have hinf : m.total.isFinite = false := by decide +kernel
  exact ⟨⟨x, hx, hx', (infinite_values_are_mixed_numbers s .radixTool ['1']).2.1 rfl x hx'⟩, hv, hinf,
    (infinite_values_are_mixed_numbers s .full t).2.2 _ hv hinf⟩

end Expression

end Positional
