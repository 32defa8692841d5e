/-
  Positional.Proofs.Answer — answers that may be errors.

  A computation in steps answers `ok` exactly if every step does (`bind_eq_ok`, `mapM_eq_ok`), and
  its error is that of the first step that has one (`bind_eq_error`). To change the errors of an
  answer changes nothing else (`mapError_eq_ok`, `mapError_eq_error`).
-/
import Mathlib.Data.List.Forall2

namespace Positional

theorem bind_eq_ok {ε α β : Type} {r : Except ε α} {f : α → Except ε β} {y : β} :
    r >>= f = .ok y ↔ ∃ x, r = .ok x ∧ f x = .ok y := by
  cases r <;> simp [bind, Except.bind]

theorem bind_eq_error {ε α β : Type} {r : Except ε α} {f : α → Except ε β} {e : ε} :
    r >>= f = .error e ↔ r = .error e ∨ ∃ x, r = .ok x ∧ f x = .error e := by
  cases r <;> simp [bind, Except.bind]

theorem mapError_eq_ok {ε ε' α : Type} {r : Except ε α} {f : ε → ε'} {x : α} : r.mapError f = .ok x ↔ r = .ok x := by
  cases r <;> simp [Except.mapError]

theorem mapError_eq_error {ε ε' α : Type} {r : Except ε α} {f : ε → ε'} {e : ε'} :
    r.mapError f = .error e ↔ ∃ d, r = .error d ∧ f d = e := by
  cases r <;> simp [Except.mapError]

theorem mapM_eq_ok {ε α β : Type} {f : α → Except ε β} {xs : List α} {ys : List β} :
    xs.mapM f = .ok ys ↔ List.Forall₂ (fun x y => f x = .ok y) xs ys := by
  induction xs generalizing ys with
  | nil =>
    rw [List.mapM_nil, List.forall₂_nil_left_iff]
    exact ⟨fun h => (Except.ok.inj h).symm, fun h => h ▸ rfl⟩
  | cons x xs ih =>
    rw [List.mapM_cons, List.forall₂_cons_left_iff]
    constructor
    · intro h
      obtain ⟨y, hy, h⟩ := bind_eq_ok.mp h
      obtain ⟨ys', hys, h⟩ := bind_eq_ok.mp h
      exact ⟨y, ys', hy, ih.mp hys, (Except.ok.inj h).symm⟩
    · intro ⟨y, ys', hy, hys, h⟩
      rw [hy, ih.mpr hys, h]
      rfl

end Positional
