/-
  Positional.Proofs.Expression.FactorialMark — what the factorial adds to the language.

  Without its mark a text means the same in languages with and without the factorial: it is a
  spelling of itself in which nothing stands for the mark. In a language without the
  factorial every character of an accepted text has another part (`Derives.skipsMark`), so a text with
  the mark has no value there (`mark_notMem_of_value`).
-/
import Positional.Proofs.Expression.Agreement

namespace Positional

open Cursor

/-- Characters stand for themselves, but the mark of the factorial for none. -/
def Respelling.unmarked : Respelling where
  letter x y := x = y ∧ x ≠ '!'
  gaps := False
  symm h := ⟨h.1.symm, h.1 ▸ h.2⟩
  toLower_eq h := congrArg Char.toLower h.1
  zero := ⟨rfl, by decide⟩
  marker := ⟨rfl, by decide⟩

namespace Expression

open Respelling

/-! ## (1) Texts without the mark -/

theorem respells_unmarked {t : Text} (h : '!' ∉ t) : unmarked.Respells t t :=
  respells_self fun _ hx => ⟨rfl, fun he => h (he ▸ hx)⟩

/-- Without exchanged blanks and letters answers agree only if they are the same. -/
theorem AnswersAgree.eq {L : Respelling} (hl : ∀ x y, L.letter x y → x = y) (hg : ¬ L.gaps) {t u : Text}
    {r r' : Except ExpressionError Binary64} (h : AnswersAgree L t u r r') : r = r' := by
  have place {p q : Nat} (h : L.Place p q) : p = q := h.resolve_left hg
  cases h with
  | value | domain => rfl
  | fault hf =>
    cases hf with
    | empty | unexpectedEnd | tooManySlashes => rfl
    | unexpectedCharacter hx hp => rw [hl _ _ hx, place hp]
    | blank hg' => exact absurd hg' hg
    | unbalancedParenthesis hp | nestedTooDeeply hp => rw [place hp]
    | unknownFunction hn | invalidNumber hn => rw [eq_of_forall₂ hl hn]

theorem evaluate_of_no_mark {t : Text} (h : '!' ∉ t) (s : Setting) (fractions : Bool) :
    evaluate s ⟨true, fractions⟩ t = evaluate s ⟨false, fractions⟩ t := by
  have hmarks : MarksAgree unmarked true false := Or.inr fun x (hx : '!' = x ∧ '!' ≠ '!') => hx.2 rfl
  have hagree : AnswersAgree unmarked t t (evaluate s ⟨true, fractions⟩ t) (evaluate s ⟨false, fractions⟩ t) :=
    evaluate_respelled hmarks fractions (respells_unmarked h).trim (fun hg => hg.elim) ⟨rfl, Or.inr rfl⟩
  exact hagree.eq (fun x y (hx : x = y ∧ x ≠ '!') => hx.1) id

/-! ## (2) Texts with the mark -/

theorem mark_notMem_of_blank {w : Text} (h : Blank w) : '!' ∉ w := h.notMem rfl

theorem mark_notMem_decimalLexeme (t : Text) : '!' ∉ decimalLexeme t := by
  fun_induction decimalLexeme t with
  | case1 | case3 | case6 | case7 => exact List.not_mem_nil
  | case2 x t hx ih =>
    refine List.not_mem_cons_of_ne_of_not_mem ?_ ih
    rintro rfl
    cases hx
  | case4 x hx hm y u hy ih =>
    refine List.not_mem_cons_of_ne_of_not_mem ?_ ih
    rintro rfl
    cases hm
  | case5 x hx hm y u hy hs ih =>
    refine List.not_mem_cons_of_ne_of_not_mem ?_ (List.not_mem_cons_of_ne_of_not_mem ?_ ih)
    · rintro rfl
      cases hm
    · rintro rfl
      cases hs

/-- What lies between the cursors has no mark. -/
def SkipsMark (c d : Cursor) : Prop := ∃ w, Spans c w d ∧ '!' ∉ w

variable {c d e : Cursor}

theorem SkipsMark.refl (c : Cursor) : SkipsMark c c := ⟨[], spans_refl c, List.not_mem_nil⟩

theorem SkipsMark.trans (h : SkipsMark c d) (h' : SkipsMark d e) : SkipsMark c e := by
  obtain ⟨v, hv, hn⟩ := h
  obtain ⟨w, hw, hn'⟩ := h'
  exact ⟨v ++ w, hv.trans hw, fun hm => (List.mem_append.mp hm).elim hn hn'⟩

theorem skipsMark_token {x : Char} (hx : x ≠ '!') (h : Token x c d) : SkipsMark c d := by
  obtain ⟨w, hw, hs⟩ := h
  refine ⟨w ++ [x], hs, fun hm => ?_⟩
  rcases List.mem_append.mp hm with hm | hm
  · exact mark_notMem_of_blank hw hm
  · exact hx (List.mem_singleton.mp hm).symm

theorem skipsMark_gap (h : Gap c d) : SkipsMark c d := by
  obtain ⟨w, hw, hs⟩ := h
  exact ⟨w, hs, mark_notMem_of_blank hw⟩

theorem skipsMark_run {p : Char → Bool} (hp : p '!' = false) {w : Text} (h : Run p c w d) : SkipsMark c d := by
  refine ⟨w, h.1, fun hm => ?_⟩
  have := h.2.2.1 '!' hm
  rw [hp] at this
  cases this

/-- Without the factorial, what is derived has no mark. -/
theorem Derives.skipsMark {n : Nat} {part : Part} {e : Expression} (h : Derives false n part c e d) : SkipsMark c d := by
  have operator (op : Operator) : op.symbol ≠ '!' := by cases op <;> decide
  induction h with
  | chain _ _ ih ih' => exact ih.trans ih'
  | last | lastProduct => exact SkipsMark.refl _
  | link _ ht _ _ ih ih' => exact (skipsMark_token (operator _) ht).trans (ih.trans ih')
  | factor _ hp _ ih ih' =>
    cases hp with
    | mark hf => cases hf
    | none => exact ih.trans ih'
  | product _ _ _ _ ih ih' => exact ih.trans ih'
  | plus ht _ ih | minus ht _ ih | root ht _ ih => exact (skipsMark_token (by decide) ht).trans ih
  | plain _ _ ih => exact ih
  | power _ ht _ ih ih' => exact ih.trans ((skipsMark_token (by decide) ht).trans ih')
  | decimal hg _ hs _ => exact (skipsMark_gap hg).trans ⟨_, hs, mark_notMem_decimalLexeme _⟩
  | @hexadecimal n marker digits c c₁ c₂ c₃ hg hm hs hr _ =>
    have hmarker : SkipsMark c₁ c₂ := ⟨_, hs, by rcases hm with rfl | rfl <;> decide⟩
    exact (skipsMark_gap hg).trans (hmarker.trans (skipsMark_run rfl hr))
  | parentheses ht _ ht' ih =>
    exact (skipsMark_token (by decide) ht).trans (ih.trans (skipsMark_token (by decide) ht'))
  | constant hg hr _ => exact (skipsMark_gap hg).trans (skipsMark_run (isAlphabetic_symbols '!' (by simp)) hr)
  | function hg hr _ _ ih =>
    exact (skipsMark_gap hg).trans ((skipsMark_run (isAlphabetic_symbols '!' (by simp)) hr).trans ih)

theorem mark_notMem_of_derivation {t : Text} {e : Expression} (h : Derivation false t e) : '!' ∉ t := by
  obtain ⟨d, hd, hb⟩ := h
  obtain ⟨w, hs, hn⟩ := hd.skipsMark
  have ht : t = w ++ d.rest := hs.1
  rw [ht]
  exact fun hm => (List.mem_append.mp hm).elim hn (mark_notMem_of_blank hb)

theorem mark_notMem_of_wrapped {m : MixedNumber} {k : Nat} {t : Text} (h : m.Wrapped k t) : '!' ∉ t := by
  induction h with
  | @bare lead t trail hl hr hs =>
    obtain ⟨⟨hw, hn, hd⟩, gap, _, hg, rfl⟩ := hs
    have hwhole := MixedNumber.not_mem_of_isDigits hw (x := '!') rfl
    have hnumerator := MixedNumber.not_mem_of_isDigits hn (x := '!') rfl
    have hdenominator := MixedNumber.not_mem_of_isDigits hd (x := '!') rfl
    have hfirst : '!' ∉ m.first := by
      unfold MixedNumber.first
      split <;> simp [hwhole]
    simp [MixedNumber.second, hfirst, hnumerator, hdenominator, mark_notMem_of_blank hl, mark_notMem_of_blank hr,
      mark_notMem_of_blank hg]
  | layer hl hr _ ih => simp [ih, mark_notMem_of_blank hl, mark_notMem_of_blank hr]

/-- Without the factorial, a text with a value has no mark. -/
theorem mark_notMem_of_value {s : Setting} {fractions : Bool} {t : Text} {v : Binary64}
    (h : evaluate s ⟨false, fractions⟩ t = .ok v) : '!' ∉ t := by
  cases hg : grammarValue s ⟨false, fractions⟩ t.trim with
  | ok x =>
    obtain ⟨e, he⟩ := derivation_of_value hg
    exact mark_notMem_of_derivation he
  | error error =>
    obtain ⟨m, k, hw, _⟩ := wrapped_of_evaluate hg h
    exact mark_notMem_of_wrapped hw

/-- The factorial adds texts with its mark to the language, and changes nothing else. -/
theorem factorial_is_gated_by_mark (s : Setting) (fractions : Bool) (t : Text) :
    ('!' ∉ t → evaluate s ⟨true, fractions⟩ t = evaluate s ⟨false, fractions⟩ t) ∧
    ('!' ∈ t → ∀ v, evaluate s ⟨false, fractions⟩ t ≠ .ok v) ∧
    ∀ v, evaluate s ⟨false, fractions⟩ t = .ok v → evaluate s ⟨true, fractions⟩ t = .ok v := by
  refine ⟨fun h => evaluate_of_no_mark h s fractions, fun h v hv => mark_notMem_of_value hv h, fun v hv => ?_⟩
  rw [evaluate_of_no_mark (mark_notMem_of_value hv) s fractions, hv]

/-- A text with the mark has a value in the language that has it, and none in the other. -/
theorem factorial_is_gated_by_mark_three :
    let s : Setting := ⟨⟨fun _ x => x, fun x _ => x⟩, fun _ => ⟨0, twoPow_pos 53⟩⟩
    let t : Text := "(3!)/2".toList
    '!' ∈ t ∧ evaluate s ⟨true, true⟩ t = .ok (.ofNat 3) ∧ (∀ v, evaluate s ⟨false, true⟩ t ≠ .ok v) ∧
      '!' ∉ "7%4".toList ∧ evaluate s ⟨false, true⟩ "7%4".toList = .ok (.ofNat 3) ∧
      evaluate s ⟨true, true⟩ "7%4".toList = .ok (.ofNat 3) := by
  intro s t
  have hm : '!' ∈ t := by decide
  have ht : evaluate s ⟨true, true⟩ t = .ok (.ofNat 3) := evaluate_of_value (by decide +kernel)
  have hv : evaluate s ⟨false, true⟩ "7%4".toList = .ok (.ofNat 3) := evaluate_of_value (by decide +kernel)
  refine ⟨hm, ht, (factorial_is_gated_by_mark s true t).2.1 hm, by decide, hv, ?_⟩
  exact (factorial_is_gated_by_mark s true "7%4".toList).2.2 _ hv

end Expression

end Positional
