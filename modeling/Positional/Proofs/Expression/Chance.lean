/-
  Positional.Proofs.Expression.Chance — texts whose value does not depend on chance.

  A text without the name of the random constant is read without a draw, also where reading breaks off:
  read next to itself, as if blanks were exchanged, it shows no constant that has a place
  (`isDrawless_read`). Whatever the draws are, all of its parts then have the same value or the same
  error, and so has the text in its fraction form (`evaluate_of_randFree`).
-/
import Positional.Proofs.Expression.Spacing

namespace Positional.Expression

open Respelling

/-! ## (1) What is read -/

/-- Where places do not count there are no draws. -/
theorem Respelled.isDrawless {L : Respelling} {t u : Text} {e e' : Expression} (hg : L.gaps) (h : e.Respelled L t u e') :
    e.isDrawless = true := by
  induction h with
  | number | fault => rfl
  | constant _ hk => exact bne_iff_ne.mpr (hk hg)
  | call _ _ ih | negation _ ih | factorial _ ih | faultAfter _ _ ih => exact ih
  | binary _ _ _ ihl ihr => exact isDrawless_binary.mpr ⟨ihl, ihr⟩

theorem isDrawless_read (factorial : Bool) {t : Text} (h : RandFree t) : (read factorial t).isDrawless = true := by
  have htexts : spacing.Texts t t := ⟨respells_self fun _ _ => rfl, fun _ => h⟩
  exact (read_respelled (Or.inl rfl) htexts).isDrawless trivial

/-! ## (2) What it is worth -/

variable {s s' : Setting} (hs : s.elementary = s'.elementary)

include hs

theorem value_of_isDrawless {e : Expression} (h : e.isDrawless = true) : e.value s = e.value s' :=
  (value_shifted h rfl 0).symm.trans (value_shifted h hs 0)

/-- Without the random constant the draws make no difference, in any form of a text. -/
theorem evaluate_of_randFree (language : Language) {t : Text} (h : RandFree t) :
    evaluate s language t = evaluate s' language t := by
  induction hn : t.length using Nat.strongRecOn generalizing t s s' with
  | ind n ih =>
    have ht := trim_part t
    have hlen := Text.length_trim_le t
    have part {u : Text} (hu : u <:+: t.trim) (hlt : u.length < t.trim.length) (k : Nat) :
        evaluate (s.beyond t.trim.length k) language u = evaluate (s'.beyond t.trim.length k) language u := by
      have hs' : (s.beyond t.trim.length k).elementary = (s'.beyond t.trim.length k).elementary := hs
      exact ih u.length (by omega) hs' (h.of_part (hu.trans ht)) rfl
    have hsame : grammarValue s' language t.trim = grammarValue s language t.trim :=
      (value_of_isDrawless hs (isDrawless_read _ (h.of_part ht))).symm
    cases hx : grammarValue s language t.trim with
    | ok x => rw [evaluate_of_value hx, evaluate_of_value (hsame.trans hx)]
    | error e =>
      have hx' := hsame.trans hx
      cases ho : language.fractions && leavesOpen e with
      | false => rw [evaluate_of_closed hx ho, evaluate_of_closed hx' ho]
      | true =>
        cases hf : FractionForm.ofText t.trim with
        | mixed m => rw [evaluate_of_mixed hx ho hf, evaluate_of_mixed hx' ho hf]
        | crowded => rw [evaluate_of_crowded hx ho hf, evaluate_of_crowded hx' ho hf]
        | none => rw [evaluate_of_none hx ho hf, evaluate_of_none hx' ho hf]
        | enclosed inner =>
          rw [evaluate_of_enclosed hx ho hf, evaluate_of_enclosed hx' ho hf,
            part (infix_of_enclosed hf) (FractionForm.length_lt_of_enclosed hf)]
        | quotient numerator denominator =>
          obtain ⟨hnumerator, hdenominator⟩ := infix_of_quotient hf
          obtain ⟨hlt, hlt'⟩ := FractionForm.length_lt_of_quotient hf
          rw [evaluate_of_quotient hx ho hf, evaluate_of_quotient hx' ho hf, part hnumerator hlt, part hdenominator hlt']

end Positional.Expression
