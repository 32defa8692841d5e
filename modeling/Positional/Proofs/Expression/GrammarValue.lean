/-
  Positional.Proofs.Expression.GrammarValue — the value that the grammar gives to a text.

  Reading comes before evaluation here, and a fault of reading is a leaf of the expression. So
  the answer for a text that has a derivation is the value of what is derived, evaluated
  from left to right, and a text without a derivation has no value (`derivation_decides_value`).
-/
import Positional.Expression
import Positional.Proofs.Expression.Reading

namespace Positional.Expression

/-- A text has the value `v` exactly if it has a derivation that evaluates to `v`. A derivation
whose evaluation fails is answered with the operation that fails first. -/
theorem derivation_decides_value (s : Setting) (language : Language) (t : Text) :
    (∀ v, grammarValue s language t = .ok v ↔ ∃ e, Derivation language.factorial t e ∧ e.value s = .ok v) ∧
      ∀ e error, Derivation language.factorial t e → e.value s = .error error →
        ∃ d, error = .domain d ∧ FailsFirst s e (.domain d) ∧ grammarValue s language t = .error (.domain d) := by
  refine ⟨fun v => ⟨fun h => ?_, fun ⟨e, hd, hv⟩ => ?_⟩, fun e error hd hv => ?_⟩
  · exact ⟨read language.factorial t, read_iff.mpr ⟨rfl, isComplete_of_value h⟩, h⟩
  · rw [grammarValue, (read_iff.mp hd).1, hv]
  · obtain ⟨hr, hc⟩ := read_iff.mp hd
    rcases value_of_isComplete hc s with ⟨x, hx⟩ | ⟨d, hx⟩
    · rw [hv] at hx
      cases hx
    · rw [hv] at hx
      cases hx
      exact ⟨d, rfl, value_eq_error_iff.mp hv, by rw [grammarValue, hr, hv]⟩

/-- Two divisions by zero: the answer is the one on the left. -/
theorem derivation_decides_one_over_zero :
    let s : Setting := ⟨⟨fun _ x => x, fun x _ => x⟩, fun _ => ⟨0, twoPow_pos 53⟩⟩
    let t := "1/0 + 2%0".toList
    let e := read true t
    Derivation true t e ∧ e.value s = .error (.domain .divisionByZero) ∧
      ∃ d, ExpressionError.domain .divisionByZero = .domain d ∧ FailsFirst s e (.domain d) ∧
        grammarValue s .full t = .error (.domain d) := by
  intro s t e
  have hd : Derivation true t e := read_iff.mpr ⟨rfl, by decide +kernel⟩
  have hv : e.value s = .error (.domain .divisionByZero) := failure?_eq_some.mp (by decide +kernel)
  exact ⟨hd, hv, (derivation_decides_value s .full t).2 e _ hd hv⟩

end Positional.Expression
