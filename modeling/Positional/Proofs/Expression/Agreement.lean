/-
  Positional.Proofs.Expression.Agreement — two spellings of a text have one value.

  Expressions that are the same but for their spelling have the same value, or the same failure but
  for its spelling (`value_respelled`). The fraction forms of two spellings are the same form, with
  parts that are spellings of each other (`form_respelled`). So by induction on the text
  evaluation agrees, through all forms (`evaluate_respelled`).
-/
import Positional.Proofs.Expression.Fractions
import Positional.Proofs.Expression.Respelling

namespace Positional.Expression

open Respelling

variable {L : Respelling} {t u : Text}

/-! ## (1) Values -/

/-- The same answer, or the same fault in two spellings. -/
inductive AnswersAgree (L : Respelling) (t u : Text) :
    Except ExpressionError Binary64 → Except ExpressionError Binary64 → Prop
  | value (x : Binary64) : AnswersAgree L t u (.ok x) (.ok x)
  | domain (d : DomainError) : AnswersAgree L t u (.error (.domain d)) (.error (.domain d))
  | fault {f f' : SyntaxError} : f.Respelled L t u f' →
      AnswersAgree L t u (.error (.grammar f)) (.error (.grammar f'))

/-- The same elementary functions, and the same draws where places are the same. -/
def SettingsAgree (L : Respelling) (s s' : Setting) : Prop :=
  s.elementary = s'.elementary ∧ (L.gaps ∨ s.chance = s'.chance)

variable {s s' : Setting}

theorem answersAgree_operation (r : Except DomainError Binary64) :
    AnswersAgree L t u (r.mapError .domain) (r.mapError .domain) := by
  cases r with
  | ok x => exact .value x
  | error d => exact .domain d

theorem AnswersAgree.bind {r r' : Except ExpressionError Binary64}
    {g g' : Binary64 → Except ExpressionError Binary64} (h : AnswersAgree L t u r r')
    (hg : ∀ x, AnswersAgree L t u (g x) (g' x)) : AnswersAgree L t u (r >>= g) (r' >>= g') := by
  cases h with
  | value x => exact hg x
  | domain d => exact .domain d
  | fault hf => exact .fault hf

/-- The quotient of the two parts of a fraction form. -/
theorem AnswersAgree.quotient {r r' q q' : Except ExpressionError Binary64} (hr : AnswersAgree L t u r r')
    (hq : AnswersAgree L t u q q') :
    AnswersAgree L t u
      (do let x ← r; let y ← q; if y.isZero then .error (.domain .zeroDenominator) else .ok (x.div y))
      (do let x ← r'; let y ← q'; if y.isZero then .error (.domain .zeroDenominator) else .ok (x.div y)) := by
  refine hr.bind fun x => hq.bind fun y => ?_
  split
  · exact .domain .zeroDenominator
  · exact .value _

theorem value_respelled (hs : SettingsAgree L s s') {e e' : Expression} (h : e.Respelled L t u e') :
    AnswersAgree L t u (e.value s) (e'.value s') := by
  obtain ⟨helementary, hchance⟩ := hs
  induction h with
  | number x => exact answersAgree_operation _
  | @constant k p q hplace hk =>
    have hvalue : k.value s.chance p = k.value s'.chance q := by
      by_cases hr : k = .random
      · rcases hchance with hg | hc
        · exact absurd hr (hk hg)
        rcases hplace with hg | rfl
        · exact absurd hr (hk hg)
        · rw [hc]
      · exact value_constant hr _ _ _ _
    simp only [value, hvalue]
    exact .value _
  | call f _ ih =>
    simp only [value, helementary]
    exact ih.bind fun x => answersAgree_operation _
  | negation _ ih => exact ih.bind fun x => .value _
  | factorial _ ih => exact ih.bind fun x => answersAgree_operation _
  | binary op _ _ ih₁ ih₂ =>
    simp only [value, helementary]
    exact ih₁.bind fun x => ih₂.bind fun y => answersAgree_operation _
  | fault hf => exact .fault hf
  | faultAfter _ hf ih => exact ih.bind fun x => .fault hf

/-! ## (2) Fraction forms -/

/-- The same form in two spellings. -/
inductive FormRespelled (L : Respelling) : FractionForm → FractionForm → Prop
  | mixed (m : MixedNumber) : FormRespelled L (.mixed m) (.mixed m)
  | enclosed {v w : Text} : L.Respells v w → FormRespelled L (.enclosed v) (.enclosed w)
  | quotient {v v' w w' : Text} : L.Respells v v' → L.Respells w w' → FormRespelled L (.quotient v w) (.quotient v' w')
  | crowded : FormRespelled L .crowded .crowded
  | none : FormRespelled L .none .none

/-- Digits are spelled in one way. -/
theorem digits_eq {v w : Text} (h : L.Respells v w) (hv : ∀ x ∈ v, x.isDigit = true) : v = w := by
  induction v generalizing w with
  | nil => exact h.eq_nil.symm
  | cons x v ih =>
    have hx := hv x List.mem_cons_self
    obtain ⟨y, w, rfl, hl, hr⟩ := h.uncons (isBlank_of_isDigit hx)
    rw [eq_of_symbol hl (isAlpha_of_isDigit hx), ih hr fun z hz => hv z (List.mem_cons_of_mem x hz)]

theorem isDigits_eq {v w : Text} (h : L.Respells v w) : Text.isDigits v = Text.isDigits w := by
  refine Bool.eq_iff_iff.mpr ⟨fun hv => ?_, fun hw => ?_⟩
  · rwa [← digits_eq h (Text.isDigits_iff.mp hv).2]
  · rwa [← digits_eq h.symm (Text.isDigits_iff.mp hw).2]

theorem cutSign_respelled {v w : Text} (h : L.Respells v w) :
    (MixedNumber.cutSign v).1 = (MixedNumber.cutSign w).1 ∧
      L.Respells (MixedNumber.cutSign v).2 (MixedNumber.cutSign w).2 := by
  have signed {v w word : Text} (h : L.Respells v w) (hv : v = '-' :: word) :
      ∃ word', w = '-' :: word' ∧ L.Respells word word' := by
    subst hv
    obtain ⟨y, word', rfl, hl, hr⟩ := h.uncons rfl
    exact ⟨word', by rw [eq_of_symbol hl rfl], hr⟩
  fun_cases MixedNumber.cutSign v with
  | case1 word =>
    obtain ⟨word', rfl, hr⟩ := signed h rfl
    exact ⟨rfl, hr⟩
  | case2 _ hv =>
    fun_cases MixedNumber.cutSign w with
    | case1 word =>
      obtain ⟨word', rfl, _⟩ := signed h.symm rfl
      exact absurd rfl (hv word')
    | case2 => exact ⟨rfl, h⟩

theorem mixedNumber_eq (h : L.Respells t u) : MixedNumber.ofText? t = MixedNumber.ofText? u := by
  have hwords := h.words
  unfold MixedNumber.ofText?
  generalize t.words = ts at hwords
  generalize u.words = us at hwords
  cases hwords with
  | nil => rfl
  | cons hfirst hwords =>
  cases hwords with
  | nil => rfl
  | cons hsecond hwords =>
  cases hwords with
  | cons => rfl
  | nil =>
    have hsign := cutSign_respelled (respells_of_forall₂ hfirst)
    have hcut := (respells_of_forall₂ hsecond).cutAt? '/' rfl rfl
    dsimp only
    generalize MixedNumber.cutSign _ = p at hsign ⊢
    generalize MixedNumber.cutSign _ = q at hsign ⊢
    generalize Text.cutAt? '/' _ = r at hcut ⊢
    generalize Text.cutAt? '/' _ = r' at hcut ⊢
    obtain ⟨hnegative, hwhole⟩ := hsign
    cases hcut with
    | none => rfl
    | some hparts =>
      obtain ⟨hnumerator, hdenominator⟩ := hparts
      dsimp only
      rw [hnegative, isDigits_eq hwhole, isDigits_eq hnumerator, isDigits_eq hdenominator]
      split
      · rename_i hd
        simp only [Bool.and_eq_true, Text.isDigits_iff] at hd
        rw [digits_eq hwhole.symm hd.1.1.2, digits_eq hnumerator.symm hd.1.2.2, digits_eq hdenominator.symm hd.2.2]
      · rfl

theorem inner?_respelled (h : L.Respells t u) :
    Option.Rel L.Respells (FractionForm.inner? t) (FractionForm.inner? u) := by
  refine rel_of_some (fun {t u inner} h ht => ?_) h
  rw [FractionForm.inner?_eq_some_iff] at ht
  subst ht
  obtain ⟨x, w, rfl, hx, hw⟩ := h.uncons rfl
  obtain ⟨v, y, v', rfl, hv, hy, hv'⟩ := hw.cut rfl
  refine ⟨v, FractionForm.inner?_eq_some_iff.mpr ?_, hv⟩
  rw [eq_of_symbol hx rfl, eq_of_symbol hy rfl, hv'.eq_nil]

theorem form_respelled (h : L.Respells t u) : FormRespelled L (FractionForm.ofText t) (FractionForm.ofText u) := by
  have hinner := inner?_respelled h
  have hcut := h.cutAt? '/' rfl rfl
  unfold FractionForm.ofText
  rw [mixedNumber_eq h]
  cases MixedNumber.ofText? u with
  | some m => exact .mixed m
  | none =>
  dsimp only
  generalize FractionForm.inner? t = p at hinner ⊢
  generalize FractionForm.inner? u = q at hinner ⊢
  cases hinner with
  | some hr => exact .enclosed hr
  | none =>
  dsimp only
  generalize t.cutAt? '/' = p at hcut ⊢
  generalize u.cutAt? '/' = q at hcut ⊢
  cases hcut with
  | none => exact .none
  | @some p q hr =>
    have hslash : p.2.contains '/' = q.2.contains '/' := by
      rw [Bool.eq_iff_iff, List.contains_iff_mem, List.contains_iff_mem]
      exact hr.2.mem_iff rfl rfl
    dsimp only
    rw [hslash]
    split
    · exact .crowded
    · exact .quotient hr.1 hr.2

/-! ## (3) Evaluation -/

theorem AnswersAgree.mono {t' u' : Text} {r r' : Except ExpressionError Binary64} (h : AnswersAgree L t u r r')
    (ht : t <:+: t') (hu : u <:+: u') : AnswersAgree L t' u' r r' := by
  cases h with
  | value x => exact .value x
  | domain d => exact .domain d
  | fault hf =>
    cases hf with
    | empty => exact .fault .empty
    | unexpectedCharacter hl hp => exact .fault (.unexpectedCharacter hl hp)
    | blank hg hx hy => exact .fault (.blank hg (hx.mono ht) (hy.mono hu))
    | unexpectedEnd => exact .fault .unexpectedEnd
    | unbalancedParenthesis hp => exact .fault (.unbalancedParenthesis hp)
    | unknownFunction hn => exact .fault (.unknownFunction hn)
    | invalidNumber hn => exact .fault (.invalidNumber hn)
    | tooManySlashes => exact .fault .tooManySlashes
    | nestedTooDeeply hp => exact .fault (.nestedTooDeeply hp)

theorem leavesOpen_eq {f f' : SyntaxError} (h : f.Respelled L t u f') :
    leavesOpen (.grammar f) = leavesOpen (.grammar f') := by
  cases h <;> rfl

theorem SettingsAgree.beyond (hs : SettingsAgree L s s') (h : L.Respells t u) (part : Nat) :
    SettingsAgree L (s.beyond t.length part) (s'.beyond u.length part) := by
  obtain ⟨helementary, hg | hchance⟩ := hs
  · exact ⟨helementary, Or.inl hg⟩
  rcases h.length with hg | hlen
  · exact ⟨helementary, Or.inl hg⟩
  · refine ⟨helementary, Or.inr ?_⟩
    simp only [Setting.beyond, hchance, hlen]

theorem trim_part (t : Text) : t.trim <:+: t := by
  obtain ⟨lead, trail, _, _, ht⟩ := Text.exists_trim t
  exact ⟨lead, trail, ht.symm⟩

theorem infix_of_enclosed {inner : Text} (h : FractionForm.ofText t = .enclosed inner) : inner <:+: t := by
  rw [FractionForm.ofText_eq_enclosed.mp h]
  exact ⟨['('], [')'], rfl⟩

theorem infix_of_quotient {numerator denominator : Text}
    (h : FractionForm.ofText t = .quotient numerator denominator) : numerator <:+: t ∧ denominator <:+: t := by
  rw [(FractionForm.ofText_eq_quotient h).1]
  exact ⟨(List.prefix_append numerator _).isInfix, (numerator ++ ['/']), [], by simp⟩

/-- Two spellings of a text have the same value, or fail alike. -/
theorem evaluate_respelled {marks marks' : Bool} (hmarks : MarksAgree L marks marks') (fractions : Bool)
    (h : L.Respells t.trim u.trim) (hr : L.gaps → RandFree t) (hs : SettingsAgree L s s') :
    AnswersAgree L t u (evaluate s ⟨marks, fractions⟩ t) (evaluate s' ⟨marks', fractions⟩ u) := by
  induction hn : t.length using Nat.strongRecOn generalizing t u s s' with
  | ind n ih =>
    have ht := trim_part t
    have hu := trim_part u
    have htexts : L.Texts t.trim u.trim := ⟨h, fun hg => (hr hg).of_part ht⟩
    have hlen := Text.length_trim_le t
    have hgrammar : AnswersAgree L t.trim u.trim (grammarValue s ⟨marks, fractions⟩ t.trim)
        (grammarValue s' ⟨marks', fractions⟩ u.trim) := value_respelled hs (read_respelled hmarks htexts)
    generalize hx : grammarValue s ⟨marks, fractions⟩ t.trim = r at hgrammar
    generalize hx' : grammarValue s' ⟨marks', fractions⟩ u.trim = r' at hgrammar
    cases hgrammar with
    | value x =>
      rw [evaluate_of_value hx, evaluate_of_value hx']
      exact .value x
    | domain d =>
      rw [evaluate_of_closed hx (Bool.and_false _), evaluate_of_closed hx' (Bool.and_false _)]
      exact .domain d
    | @fault f f' hf =>
      have hfault : AnswersAgree L t u (.error (.grammar f)) (.error (.grammar f')) := (AnswersAgree.fault hf).mono ht hu
      by_cases ho : (fractions && leavesOpen (.grammar f)) = true
      · have ho' : (fractions && leavesOpen (.grammar f')) = true := by rwa [← leavesOpen_eq hf]
        have hform := form_respelled h
        generalize hv : FractionForm.ofText t.trim = form at hform
        generalize hw : FractionForm.ofText u.trim = form' at hform
        cases hform with
        | mixed m =>
          rw [evaluate_of_mixed hx ho hv, evaluate_of_mixed hx' ho' hw]
          exact answersAgree_operation _
        | crowded =>
          rw [evaluate_of_crowded hx ho hv, evaluate_of_crowded hx' ho' hw]
          exact .fault .tooManySlashes
        | none =>
          rw [evaluate_of_none hx ho hv, evaluate_of_none hx' ho' hw]
          exact hfault
        | @enclosed v w hvw =>
          have hlt := FractionForm.length_lt_of_enclosed hv
          have hvt := (infix_of_enclosed hv).trans ht
          have hpart := ih v.length (by omega) hvw.trim (fun hg => (hr hg).of_part hvt) (hs.beyond h 0) rfl
          rw [evaluate_of_enclosed hx ho hv, evaluate_of_enclosed hx' ho' hw]
          exact hpart.mono hvt ((infix_of_enclosed hw).trans hu)
        | @quotient v v' w w' hnumerator hdenominator =>
          obtain ⟨hlt₁, hlt₂⟩ := FractionForm.length_lt_of_quotient hv
          obtain ⟨hi₁, hi₂⟩ := infix_of_quotient hv
          obtain ⟨hi₁', hi₂'⟩ := infix_of_quotient hw
          have h₁ := ih v.length (by omega) hnumerator.trim (fun hg => (hr hg).of_part (hi₁.trans ht)) (hs.beyond h 0) rfl
          have h₂ := ih w.length (by omega) hdenominator.trim (fun hg => (hr hg).of_part (hi₂.trans ht)) (hs.beyond h 1) rfl
          rw [evaluate_of_quotient hx ho hv, evaluate_of_quotient hx' ho' hw]
          exact (h₁.mono (hi₁.trans ht) (hi₁'.trans hu)).quotient (h₂.mono (hi₂.trans ht) (hi₂'.trans hu))
      · have ho' : ¬ (fractions && leavesOpen (.grammar f')) = true := by rwa [← leavesOpen_eq hf]
        rw [evaluate_of_closed hx (by simpa using ho), evaluate_of_closed hx' (by simpa using ho')]
        exact hfault

end Positional.Expression
