/-
  Positional.Proofs.Expression.Draws — texts without a draw.

  A text is `RandFree` if the name of the random constant stands nowhere in it, in no letter case.
  What is derived from such a text has no draw (`Derives.isDrawless`), so its value depends
  neither on chance nor on the place where it is read (`value_shifted`).
-/
import Positional.Proofs.Expression.Context

namespace Positional

open Cursor

def RandFree (t : Text) : Prop := ∀ name, name <:+: t → Identifier.ofText? name ≠ some (.constant .random)

theorem RandFree.of_part {t u : Text} (h : RandFree t) (hu : u <:+: t) : RandFree u :=
  fun name hn => h name (hn.trans hu)

theorem RandFree.of_ahead {c d : Cursor} (h : RandFree c.rest) (ha : Ahead c d) : RandFree d.rest := by
  obtain ⟨w, hw⟩ := ha
  refine h.of_part ?_
  rw [hw.1]
  exact (List.suffix_append w d.rest).isInfix

theorem fold_of_random {name : Text} (h : Identifier.ofText? name = some (.constant .random)) :
    name.map Identifier.fold = "rand".toList := by
  have table : ∀ entry ∈ Identifier.names, entry.2 = .constant .random → entry.1 = "rand".toList := by decide
  obtain ⟨before, after, hn, _⟩ := List.lookup_eq_some_iff.mp h
  exact table (_, _) (by rw [hn]; exact List.mem_append_right _ List.mem_cons_self) rfl

/-- A text without the first letter of the name. -/
theorem randFree_of_letters {t : Text} (h : t.all (Identifier.fold · != 'r') = true) : RandFree t := by
  intro name hn hr
  have hm : 'r' ∈ name.map Identifier.fold := by
    rw [fold_of_random hr]
    exact List.mem_cons_self
  obtain ⟨x, hx, he⟩ := List.mem_map.mp hm
  exact bne_iff_ne.mp (List.all_eq_true.mp h x (hn.mem hx)) he

/-- No part is the random constant. -/
def Expression.isDrawless : Expression → Bool
  | number _ | fault _ => true
  | constant c _ => c != .random
  | call _ e | negation e | factorial e | faultAfter e _ => e.isDrawless
  | binary _ left right => left.isDrawless && right.isDrawless

/-- Nothing to the left of a continuation is the random constant. -/
def Part.Drawless : Part → Prop
  | further _ left | products left => left.isDrawless = true
  | _ => True

namespace Expression

theorem isDrawless_binary {op : Operator} {left right : Expression} :
    (binary op left right).isDrawless = true ↔ left.isDrawless = true ∧ right.isDrawless = true :=
  Bool.and_eq_true_iff

/-- Only the random constant depends on chance and on its place. -/
theorem value_constant {c : Constant} (h : c ≠ .random) (chance chance' : Chance) (p p' : Nat) :
    c.value chance p = c.value chance' p' := by
  cases c with
  | random => exact absurd rfl h
  | pi | euler => rfl

theorem value_shifted {e : Expression} (h : e.isDrawless = true) {s s' : Setting} (hs : s.elementary = s'.elementary)
    (k : Nat) : (e.shifted k).value s = e.value s' := by
  induction e with
  | number | fault => rfl
  | constant c p =>
    have hc : c ≠ .random := bne_iff_ne.mp h
    simp only [shifted, value, value_constant hc s.chance s'.chance (k + p) p]
  | call f e ih => simp only [shifted, value, ih h, hs]
  | negation e ih | factorial e ih | faultAfter e error ih => simp only [shifted, value, ih h]
  | binary op left right ihl ihr =>
    obtain ⟨hl, hr⟩ := isDrawless_binary.mp h
    simp only [shifted, value, ihl hl, ihr hr, hs]

/-- What is derived from a text without draws has none, if there is none to the left of it. -/
theorem Derives.isDrawless {factorial : Bool} {n : Nat} {part : Part} {c d : Cursor} {e : Expression}
    (h : Derives factorial n part c e d) (hc : RandFree c.rest) (hp : part.Drawless) : e.isDrawless = true := by
  induction h with
  | @chain n tier first e c c₁ c₂ h₁ _ ih ih' => exact ih' (hc.of_ahead h₁.ahead) (ih hc (by cases tier <;> trivial))
  | last | lastProduct => exact hp
  | @link n tier op left right e c c₁ c₂ c₃ _ ht h₁ _ ih ih' =>
    have hc₁ := hc.of_ahead ht.ahead
    have hr : right.isDrawless = true := ih hc₁ (by cases tier <;> trivial)
    exact ih' (hc₁.of_ahead h₁.ahead) (isDrawless_binary.mpr ⟨hp, hr⟩)
  | factor h₁ hpost _ ih ih' =>
    have hc₁ := hc.of_ahead h₁.ahead
    cases hpost with
    | mark _ ht => exact ih' (hc₁.of_ahead ht.ahead) (ih hc trivial)
    | none => exact ih' hc₁ (ih hc trivial)
  | product _ _ h₁ _ ih ih' => exact ih' (hc.of_ahead h₁.ahead) (isDrawless_binary.mpr ⟨hp, ih hc trivial⟩)
  | plus ht _ ih | minus ht _ ih | root ht _ ih => exact ih (hc.of_ahead ht.ahead) trivial
  | plain _ _ ih => exact ih hc trivial
  | power h₁ ht _ ih ih' =>
    exact isDrawless_binary.mpr ⟨ih hc trivial, ih' ((hc.of_ahead h₁.ahead).of_ahead ht.ahead) trivial⟩
  | decimal | hexadecimal => rfl
  | parentheses ht _ _ ih => exact ih (hc.of_ahead ht.ahead) trivial
  | @constant n name k c c₁ c₂ hg hr hk =>
    have hn : name <:+: c₁.rest := by
      rw [hr.1.1]
      exact (List.prefix_append name c₂.rest).isInfix
    refine bne_iff_ne.mpr fun he => hc.of_ahead hg.ahead name hn ?_
    rw [hk, he]
  | function hg hr _ _ ih => exact ih ((hc.of_ahead hg.ahead).of_ahead hr.ahead) trivial

end Expression

end Positional
