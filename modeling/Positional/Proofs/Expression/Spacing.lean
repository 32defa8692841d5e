/-
  Positional.Proofs.Expression.Spacing — blanks between words.

  Texts with the same words differ in the blanks around them and in the runs of blanks between them,
  so one respells the other (`respells_of_words`). Their values are the same
  (`spacing_does_not_matter`), and so are their errors but for the places that these tell. One
  error shows a blank itself: what is found right after `0x` is reported even if it is blank.
-/
import Positional.Proofs.Expression.Agreement

namespace Positional

open Expression

/-- Characters stand for themselves, and runs of blanks for each other. -/
def Respelling.spacing : Respelling where
  letter := Eq
  gaps := True
  symm := Eq.symm
  toLower_eq := congrArg Char.toLower
  zero := rfl
  marker := rfl

open Respelling

/-! ## (1) Texts with the same words -/

theorem getLast?_append_ne_nil {v w : Text} (h : w ≠ []) : (v ++ w).getLast? = w.getLast? := by
  rw [List.getLast?_append, Option.or_of_isSome (by simpa using h)]

theorem Text.Trimmed.blank_front {v w : Text} (h : (v ++ w).Trimmed) (hv : Blank v) : v = [] := by
  cases v with
  | nil => rfl
  | cons x v => exact absurd List.mem_cons_self (hv.notMem (h.1 x rfl))

theorem Text.Trimmed.blank_end {v w : Text} (h : (v ++ w).Trimmed) (hw : Blank w) : w = [] := by
  by_contra hne
  obtain ⟨x, hx⟩ : ∃ x, w.getLast? = some x := ⟨_, List.getLast?_eq_some_getLast hne⟩
  have hb := h.2 x (by rw [getLast?_append_ne_nil hne, hx])
  exact hw.notMem hb (List.mem_of_getLast? hx)

/-- After the first word of a trimmed text nothing comes, or blanks and the other words. -/
theorem Text.Trimmed.first_word {t w : Text} {ws : List Text} (ht : t.Trimmed) (h : t.words = w :: ws) :
    (t = w ∧ ws = []) ∨
      ∃ gap rest, t = w ++ (gap ++ rest) ∧ gap ≠ [] ∧ Blank gap ∧ rest ≠ [] ∧ rest.Trimmed ∧ rest.words = ws := by
  obtain ⟨lead, after, hl, hw, rfl, ha, hws⟩ := Text.words_eq_cons_iff.mp h
  rw [List.append_assoc] at ht
  obtain rfl := ht.blank_front hl
  rw [List.nil_append] at ht
  obtain ⟨gap, hg, hafter⟩ := Text.exists_trimStart after
  by_cases hr : after.trimStart = []
  · rw [hr, List.append_nil] at hafter
    obtain rfl := ht.blank_end (hafter ▸ hg)
    exact Or.inl ⟨by simp, hws.symm⟩
  · refine Or.inr ⟨gap, after.trimStart, ?_, fun hnil => ?_, hg, hr, ⟨fun x hx => Text.head?_trimStart hx, fun x hx => ?_⟩, ?_⟩
    · rw [← hafter]
      rfl
    · obtain ⟨x, rest, hx⟩ := List.exists_cons_of_ne_nil hr
      rw [hnil, List.nil_append] at hafter
      have hb := Text.head?_trimStart (t := after) (x := x) (by rw [hx]; rfl)
      rw [ha x (by rw [hafter, hx]; rfl)] at hb
      cases hb
    · refine ht.2 x ?_
      rw [hafter, ← List.append_assoc, getLast?_append_ne_nil hr, hx]
    · rw [← hws, hafter, Text.words_append_of_blank hg, ← hafter]

/-- Trimmed texts with the same words differ in the blanks between them. -/
theorem respells_of_trimmed {t u : Text} (ht : t.Trimmed) (hu : u.Trimmed) (h : t.words = u.words) :
    spacing.Respells t u := by
  have blank {v : Text} (hv : v.Trimmed) (hw : v.words = []) : v = [] :=
    Text.Trimmed.blank_end (v := []) hv (Text.words_eq_nil_iff.mp hw)
  generalize hws : t.words = ws at h
  induction ws generalizing t u with
  | nil =>
    rw [blank ht hws, blank hu h.symm]
    exact .nil
  | cons w ws ih =>
    rcases ht.first_word hws with ⟨rfl, rfl⟩ | ⟨gap, rest, rfl, hne, hb, hr, htr, hwr⟩
    · rcases hu.first_word h.symm with ⟨rfl, _⟩ | ⟨_, rest', _, _, _, hr', htr', hwr'⟩
      · exact respells_self fun _ _ => rfl
      · exact absurd (blank htr' hwr') hr'
    · rcases hu.first_word h.symm with ⟨_, hnil⟩ | ⟨gap', rest', rfl, hne', hb', _, htr', hwr'⟩
      · exact absurd (blank htr (hwr.trans hnil)) hr
      · have hword : spacing.Respells w w := respells_self fun _ _ => rfl
        exact hword.append (.gap trivial hne hb hne' hb' (ih htr htr' hwr hwr'.symm))

theorem respells_of_words {t u : Text} (h : t.words = u.words) : spacing.Respells t.trim u.trim :=
  respells_of_trimmed (Text.trimmed_trim t) (Text.trimmed_trim u) (by rw [Text.words_trim, Text.words_trim, h])

/-! ## (2) Answers -/

/-- The error without the places that it tells. -/
def SyntaxError.unplaced : SyntaxError → SyntaxError
  | unexpectedCharacter x _ => unexpectedCharacter x 0
  | unbalancedParenthesis _ => unbalancedParenthesis 0
  | nestedTooDeeply _ => nestedTooDeeply 0
  | error => error

namespace Expression

/-- The same error but for places, or two blanks that are found right after `0x`. -/
def SameFault (t u : Text) (f f' : SyntaxError) : Prop :=
  f.unplaced = f'.unplaced ∨ ∃ x p y q, f = .unexpectedCharacter x p ∧ f' = .unexpectedCharacter y q ∧
    BlankAfterPrefix t x p ∧ BlankAfterPrefix u y q

theorem sameFault_of_respelled {t u : Text} {f f' : SyntaxError} (h : f.Respelled spacing t u f') :
    SameFault t u f f' := by
  have letters {v w : Text} (h : List.Forall₂ spacing.letter v w) : v = w := eq_of_forall₂ (fun _ _ => id) h
  cases h with
  | empty | unexpectedEnd | tooManySlashes => exact Or.inl rfl
  | unexpectedCharacter hl _ => exact Or.inl (congrArg (SyntaxError.unexpectedCharacter · 0) hl)
  | blank _ hx hy => exact Or.inr ⟨_, _, _, _, rfl, rfl, hx, hy⟩
  | unbalancedParenthesis | nestedTooDeeply => exact Or.inl rfl
  | unknownFunction hn => exact Or.inl (congrArg SyntaxError.unknownFunction (letters hn))
  | invalidNumber hn => exact Or.inl (congrArg SyntaxError.invalidNumber (letters hn))

/-- Blanks between and around the words of a text make no difference to its value, and to an error only in the
places that it tells and in the blank that is found right after `0x`. -/
theorem spacing_does_not_matter (language : Language) {s s' : Setting} (hs : s.elementary = s'.elementary) {t u : Text}
    (hr : RandFree t) (h : t.words = u.words) :
    (∃ x, evaluate s language t = .ok x ∧ evaluate s' language u = .ok x) ∨
    (∃ d, evaluate s language t = .error (.domain d) ∧ evaluate s' language u = .error (.domain d)) ∨
    ∃ f f', evaluate s language t = .error (.grammar f) ∧ evaluate s' language u = .error (.grammar f') ∧
      SameFault t u f f' := by
  have hagree : AnswersAgree spacing t u (evaluate s language t) (evaluate s' language u) :=
    evaluate_respelled (Or.inl rfl) language.fractions (respells_of_words h) (fun _ => hr) ⟨hs, Or.inl trivial⟩
  generalize evaluate s language t = r at hagree ⊢
  generalize evaluate s' language u = r' at hagree ⊢
  cases hagree with
  | value x => exact Or.inl ⟨x, rfl, rfl⟩
  | domain d => exact Or.inr (Or.inl ⟨d, rfl, rfl⟩)
  | fault hf => exact Or.inr (Or.inr ⟨_, _, rfl, rfl, sameFault_of_respelled hf⟩)

/-- Other blanks, and draws that the texts do not ask for. -/
theorem spacing_does_not_matter_seven_minus_31 :
    let s : Setting := ⟨⟨fun _ x => x, fun x _ => x⟩, fun _ => ⟨0, twoPow_pos 53⟩⟩
    let s' : Setting := ⟨s.elementary, fun _ => ⟨1, by decide⟩⟩
    let t : Text := " 7 -\t0x1F".toList
    let u : Text := "7\u00a0\n-  0x1F\u2003".toList
    s.elementary = s'.elementary ∧ RandFree t ∧ t.words = u.words ∧ evaluate s .full t = .ok (.ofInt (-24)) ∧
      evaluate s' .full u = .ok (.ofInt (-24)) := by
  intro s s' t u
  have hr : RandFree t := randFree_of_letters (by decide)
  have hw : t.words = u.words := by decide
  have ht : evaluate s .full t = .ok (.ofInt (-24)) := evaluate_of_value (by decide +kernel)
  have hs : s.elementary = s'.elementary := rfl
  refine ⟨hs, hr, hw, ht, ?_⟩
  rcases spacing_does_not_matter .full hs hr hw with ⟨x, hx, hu⟩ | ⟨d, hd, _⟩ | ⟨f, _, hf, _, _⟩
  · rw [hu, ← ht, hx]
  · rw [ht] at hd
    cases hd
  · rw [ht] at hf
    cases hf

end Expression

end Positional
