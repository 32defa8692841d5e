/-
  Positional.Proofs.Expression.Order — in which order an expression is evaluated.

  `inOrder` lists an expression and all its parts as they are evaluated: each after its own
  parts, a left operand before the right one. `FailsFirst` says that a part has an error and
  all parts before it have values.

  - `value_eq_error_iff`: the error of an expression is that of the part that fails first.
  - `firstFault?` is the error of reading that comes first in this order; an expression has
    none exactly if it is complete (`isComplete_iff`), and an answer that is an error of
    reading is that one (`firstFault?_of_value`).
  - `Starts e e'`: the evaluation of `e'` begins with that of `e`, so that a failure of `e` is
    one of `e'` (`Starts.value_error`, `Starts.firstFault?`).
-/
import Positional.Expression.Tree
import Positional.Proofs.Answer

namespace Positional.Expression

/-! ## (1) The first failure -/

/-- An expression and its parts in the order of evaluation. -/
def inOrder : Expression → List Expression
  | number x => [number x]
  | constant c position => [constant c position]
  | call f argument => argument.inOrder ++ [call f argument]
  | negation operand => operand.inOrder ++ [negation operand]
  | factorial operand => operand.inOrder ++ [factorial operand]
  | binary op left right => left.inOrder ++ right.inOrder ++ [binary op left right]
  | fault error => [fault error]
  | faultAfter complete error => complete.inOrder ++ [faultAfter complete error]

/-- Some part of `e` fails with `error`, and every part that is evaluated before it has a value. -/
def FailsFirst (s : Setting) (e : Expression) (error : ExpressionError) : Prop :=
  ∃ before part after, e.inOrder = before ++ part :: after ∧ (∀ earlier ∈ before, ∃ x, earlier.value s = .ok x) ∧
    part.value s = .error error

def failure? {ε α : Type} : Except ε α → Option ε
  | .ok _ => none
  | .error e => some e

@[simp] theorem failure?_eq_some {ε α : Type} {r : Except ε α} {e : ε} : failure? r = some e ↔ r = .error e := by
  cases r <;> simp [failure?]

@[simp] theorem failure?_eq_none {ε α : Type} {r : Except ε α} : failure? r = none ↔ ∃ x, r = .ok x := by
  cases r <;> simp [failure?]

theorem findSome?_inOrder (s : Setting) (e : Expression) :
    e.inOrder.findSome? (fun part => failure? (part.value s)) = failure? (e.value s) := by
  induction e with
  | number x | constant c position | fault error => simp [inOrder]
  | call f e ih | negation e ih | factorial e ih | faultAfter e error ih =>
    simp only [inOrder, List.findSome?_append, ih, List.findSome?_singleton]
    cases h : e.value s with
    | ok x => simp [failure?]
    | error x => simp [failure?, value, h, bind, Except.bind]
  | binary op left right ihl ihr =>
    simp only [inOrder, List.findSome?_append, ihl, ihr, List.findSome?_singleton]
    cases hl : left.value s with
    | error x => simp [failure?, value, hl, bind, Except.bind]
    | ok x =>
      cases hr : right.value s with
      | ok y => simp [failure?]
      | error y => simp [failure?, value, hl, hr, bind, Except.bind]

/-- An expression fails as the first of its parts that fails. -/
theorem value_eq_error_iff {s : Setting} {e : Expression} {error : ExpressionError} :
    e.value s = .error error ↔ FailsFirst s e error := by
  rw [← failure?_eq_some, ← findSome?_inOrder, List.findSome?_eq_some_iff]
  simp only [failure?_eq_some, failure?_eq_none]
  constructor
  · rintro ⟨before, part, after, h, hp, hb⟩
    exact ⟨before, part, after, h, hb, hp⟩
  · rintro ⟨before, part, after, h, hb, hp⟩
    exact ⟨before, part, after, h, hp, hb⟩

/-! ## (2) The first fault -/

def firstFault? : Expression → Option SyntaxError
  | number _ | constant _ _ => none
  | call _ e | negation e | factorial e => e.firstFault?
  | binary _ left right => left.firstFault?.or right.firstFault?
  | fault error => some error
  | faultAfter complete error => complete.firstFault?.or (some error)

theorem isComplete_iff {e : Expression} : e.isComplete = true ↔ e.firstFault? = none := by
  induction e with
  | number | constant | fault => simp [isComplete, firstFault?]
  | call _ _ ih | negation _ ih | factorial _ ih => simpa only [isComplete, firstFault?] using ih
  | binary op left right ihl ihr => simp [isComplete, firstFault?, ihl, ihr]
  | faultAfter => simp [isComplete, firstFault?]

theorem isComplete_of_value {s : Setting} {e : Expression} {x : Binary64} (h : e.value s = .ok x) :
    e.isComplete = true := by
  induction e generalizing x with
  | number | constant => rfl
  | call f e ih | negation e ih | factorial e ih =>
    obtain ⟨y, hy, _⟩ := bind_eq_ok.mp h
    exact ih hy
  | binary op left right ihl ihr =>
    obtain ⟨y, hy, h⟩ := bind_eq_ok.mp h
    obtain ⟨z, hz, _⟩ := bind_eq_ok.mp h
    rw [isComplete, ihl hy, ihr hz]
    rfl
  | fault => cases h
  | faultAfter e error ih =>
    obtain ⟨y, _, h⟩ := bind_eq_ok.mp h
    cases h

/-- An answer that is an error of reading is the first fault. -/
theorem firstFault?_of_value {s : Setting} {e : Expression} {error : SyntaxError}
    (h : e.value s = .error (.grammar error)) : e.firstFault? = some error := by
  have operation {r : Except DomainError Binary64} : r.mapError ExpressionError.domain ≠ .error (.grammar error) := by
    rw [Ne, mapError_eq_error]
    rintro ⟨d, _, h⟩
    cases h
  induction e with
  | number x => exact absurd h operation
  | constant => cases h
  | call f e ih | factorial e ih =>
    rcases bind_eq_error.mp h with h | ⟨x, _, h⟩
    · exact ih h
    · exact absurd h operation
  | negation e ih =>
    rcases bind_eq_error.mp h with h | ⟨x, _, h⟩
    · exact ih h
    · cases h
  | binary op left right ihl ihr =>
    rcases bind_eq_error.mp h with h | ⟨x, hx, h⟩
    · rw [firstFault?, ihl h]
      rfl
    rcases bind_eq_error.mp h with h | ⟨y, _, h⟩
    · rw [firstFault?, isComplete_iff.mp (isComplete_of_value hx), ihr h]
      rfl
    · exact absurd h operation
  | fault => cases h; rfl
  | faultAfter e error' ih =>
    rcases bind_eq_error.mp h with h | ⟨x, hx, h⟩
    · rw [firstFault?, ih h]
      rfl
    · cases h
      rw [firstFault?, isComplete_iff.mp (isComplete_of_value hx)]
      rfl

/-- A complete expression has a value or fails in an operation. -/
theorem value_of_isComplete {e : Expression} (h : e.isComplete = true) (s : Setting) :
    (∃ x, e.value s = .ok x) ∨ ∃ d, e.value s = .error (.domain d) := by
  cases hv : e.value s with
  | ok x => exact Or.inl ⟨x, rfl⟩
  | error x =>
    cases x with
    | domain d => exact Or.inr ⟨d, rfl⟩
    | grammar f =>
      rw [isComplete_iff, firstFault?_of_value hv] at h
      cases h

/-! ## (3) What is evaluated first -/

/-- The evaluation of the second expression begins with that of the first. -/
inductive Starts (e : Expression) : Expression → Prop
  | refl : Starts e e
  | left {left : Expression} (op : Operator) (right : Expression) : Starts e left → Starts e (.binary op left right)
  | factorial {operand : Expression} : Starts e operand → Starts e (.factorial operand)
  | faultAfter {complete : Expression} (error : SyntaxError) : Starts e complete → Starts e (.faultAfter complete error)

theorem Starts.trans {a b c : Expression} (h : Starts a b) (h' : Starts b c) : Starts a c := by
  induction h' with
  | refl => exact h
  | left op right _ ih => exact .left op right ih
  | factorial _ ih => exact .factorial ih
  | faultAfter error _ ih => exact .faultAfter error ih

theorem Starts.value_error {s : Setting} {e e' : Expression} {error : ExpressionError} (h : Starts e e')
    (he : e.value s = .error error) : e'.value s = .error error := by
  induction h with
  | refl => exact he
  | left _ _ _ ih | factorial _ ih | faultAfter _ _ ih => exact bind_eq_error.mpr (Or.inl ih)

theorem Starts.firstFault? {e e' : Expression} {error : SyntaxError} (h : Starts e e')
    (he : e.firstFault? = some error) : e'.firstFault? = some error := by
  induction h with
  | refl => exact he
  | left _ _ _ ih | faultAfter _ _ ih =>
    rw [Expression.firstFault?, ih]
    rfl
  | factorial _ ih => exact ih

theorem Starts.isComplete {e e' : Expression} (h : Starts e e') (he : e'.isComplete = true) :
    e.isComplete = true := by
  induction h with
  | refl => exact he
  | left _ _ _ ih => exact ih (Bool.and_eq_true_iff.mp he).1
  | factorial _ ih => exact ih he
  | faultAfter => cases he

end Positional.Expression
