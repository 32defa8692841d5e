/-
  Positional.Proofs.Expression.Recursion — how deep the recursion of evaluation goes.

  The grammar counts its calls (`CallStack`). The fraction forms do not: they evaluate texts inside
  the text, and only the length of these bounds them at first sight. But what is retried does not
  open with 256 parentheses, for the grammar refuses that for its depth (`grammarValue_of_opens`), and
  a pair of parentheses that is stripped is one of these. So `evaluateBounded`, which strips
  255 pairs at most, evaluates a quotient once at most and strips 255 pairs again, never gives up
  (`evaluateBounded_eq`). No text is refused for its depth before position 256
  (`position_of_evaluate`).
-/
import Positional.Proofs.Expression.CallStackRun
import Positional.Proofs.Expression.Fractions

namespace Positional.Expression

open Cursor

/-! ## (1) Nested evaluations with limits -/

/-- An answer, or nothing where a limit is reached. -/
abbrev Limited := Option (Except ExpressionError Binary64)

/-- Evaluates a text; `strip` evaluates what is in parentheses, `split` a quotient. -/
def evaluateStep (language : Language) (strip : Setting → Text → Limited)
    (split : Setting → Setting → Text → Text → Limited) (s : Setting) (t : Text) : Limited :=
  match grammarValue s language t.trim with
  | .ok x => some (.ok x)
  | .error e =>
    if language.fractions && leavesOpen e then
      match FractionForm.ofText t.trim with
      | .mixed m => some (m.value.mapError .domain)
      | .enclosed inner => strip (s.beyond t.trim.length 0) inner
      | .quotient numerator denominator =>
        split (s.beyond t.trim.length 0) (s.beyond t.trim.length 1) numerator denominator
      | .crowded => some (.error (.grammar .tooManySlashes))
      | .none => some (.error e)
    else some (.error e)

/-- Evaluates a text through at most so many pairs of parentheses. -/
def evaluateThrough (language : Language) (split : Setting → Setting → Text → Text → Limited) :
    Nat → Setting → Text → Limited
  | 0 => evaluateStep language (fun _ _ => none) split
  | strips + 1 => evaluateStep language (evaluateThrough language split strips) split

/-- Evaluates the parts of a quotient, in which there is no other. -/
def evaluateParts (language : Language) (s₁ s₂ : Setting) (numerator denominator : Text) : Limited := do
  match ← evaluateThrough language (fun _ _ _ _ => none) 255 s₁ numerator with
  | .error e => some (.error e)
  | .ok x =>
    match ← evaluateThrough language (fun _ _ _ _ => none) 255 s₂ denominator with
    | .error e => some (.error e)
    | .ok y => some (if y.isZero then .error (.domain .zeroDenominator) else .ok (x.div y))

/-- Evaluates a text with at most 255 + 1 + 255 evaluations inside each other in it. -/
def evaluateBounded (s : Setting) (language : Language) (t : Text) : Limited :=
  evaluateThrough language (evaluateParts language) 255 s t

/-! ## (2) What is retried -/

variable {s : Setting} {language : Language} {t : Text}

/-- Half as many parentheses as parts may be open are too many. -/
theorem grammarValue_of_opens {k : Nat} {c : Cursor} (h : Opens k (Cursor.start t) c) (hk : 256 ≤ k) :
    ∃ p, grammarValue s language t.trim = .error (.grammar (.nestedTooDeeply p)) := by
  obtain ⟨c₁, h⟩ := h.take hk
  obtain ⟨d, h⟩ := h.trim
  have hne : t.trim ≠ [] := by
    intro ht
    cases h with
    | next htoken _ =>
      have := htoken.length_lt
      simp [ht, Cursor.start] at this
  obtain ⟨p, hp⟩ := starts_fault_of_opens language.factorial t.trim.length h (Nat.le_refl 512)
  exact ⟨p, (hp.trans (starts_read language.factorial (Text.trimmed_trim t) hne)).value_error rfl⟩

theorem opens_of_enclosed {k : Nat} {inner : Text} {c : Cursor} (hf : FractionForm.ofText t.trim = .enclosed inner)
    (h : Opens k (Cursor.start inner) c) : ∃ d, Opens (k + 1) (Cursor.start t) d := by
  obtain ⟨lead, trail, hl, _, ht⟩ := Text.exists_trim t
  rw [ht, FractionForm.ofText_eq_enclosed.mp hf]
  exact ⟨_, opens_parentheses hl h⟩

/-- The parts of a quotient, one after the other. -/
def evaluateQuotient (language : Language) (s₁ s₂ : Setting) (numerator denominator : Text) :
    Except ExpressionError Binary64 := do
  let x ← evaluate s₁ language numerator
  let y ← evaluate s₂ language denominator
  if y.isZero then .error (.domain .zeroDenominator) else .ok (x.div y)

theorem evaluateStep_eq {strip : Setting → Text → Limited} {split : Setting → Setting → Text → Text → Limited}
    (hstrip : ∀ error inner, grammarValue s language t.trim = .error error → leavesOpen error = true →
      FractionForm.ofText t.trim = .enclosed inner →
      strip (s.beyond t.trim.length 0) inner = some (evaluate (s.beyond t.trim.length 0) language inner))
    (hsplit : ∀ numerator denominator, FractionForm.ofText t.trim = .quotient numerator denominator →
      split (s.beyond t.trim.length 0) (s.beyond t.trim.length 1) numerator denominator =
        some (evaluateQuotient language (s.beyond t.trim.length 0) (s.beyond t.trim.length 1) numerator denominator)) :
    evaluateStep language strip split s t = some (evaluate s language t) := by
  unfold evaluateStep
  cases hg : grammarValue s language t.trim with
  | ok x =>
    rw [evaluate_of_value hg]
  | error error =>
    dsimp only
    by_cases ho : (language.fractions && leavesOpen error) = true
    · rw [if_pos ho]
      cases hf : FractionForm.ofText t.trim with
      | mixed m => rw [evaluate_of_mixed hg ho hf]
      | enclosed inner =>
        rw [evaluate_of_enclosed hg ho hf]
        exact hstrip error inner hg (Bool.and_eq_true_iff.mp ho).2 hf
      | quotient numerator denominator =>
        rw [evaluate_of_quotient hg ho hf]
        exact hsplit numerator denominator hf
      | crowded => rw [evaluate_of_crowded hg ho hf]
      | none => rw [evaluate_of_none hg ho hf]
    · rw [if_neg ho, evaluate_of_closed hg (by simpa using ho)]

/-! ## (3) The limits are not reached -/

section Through

variable {split : Setting → Setting → Text → Text → Limited}

/-- A text that opens with fewer parentheses than may be stripped; a quotient may stand in it only
if quotients are evaluated. -/
theorem evaluateThrough_of_opens {strips : Nat} (ho : ∀ c, ¬ Opens (strips + 1) (Cursor.start t) c)
    (hsplit : '/' ∈ t → ∀ s₁ s₂ numerator denominator, '/' ∉ numerator → '/' ∉ denominator →
      split s₁ s₂ numerator denominator = some (evaluateQuotient language s₁ s₂ numerator denominator)) :
    evaluateThrough language split strips s t = some (evaluate s language t) := by
  have quotient {t : Text} {s : Setting} (hsplit : '/' ∈ t → ∀ s₁ s₂ numerator denominator, '/' ∉ numerator →
      '/' ∉ denominator → split s₁ s₂ numerator denominator = some (evaluateQuotient language s₁ s₂ numerator denominator))
      (numerator denominator : Text) (hf : FractionForm.ofText t.trim = .quotient numerator denominator) :
      split (s.beyond t.trim.length 0) (s.beyond t.trim.length 1) numerator denominator =
        some (evaluateQuotient language (s.beyond t.trim.length 0) (s.beyond t.trim.length 1) numerator denominator) := by
    obtain ⟨ht, hn, hd⟩ := FractionForm.ofText_eq_quotient hf
    refine hsplit (mem_of_mem_trim ?_) _ _ _ _ hn hd
    rw [ht]
    exact List.mem_append_right _ List.mem_cons_self
  induction strips generalizing s t with
  | zero =>
    refine evaluateStep_eq (fun error inner _ _ hf => ?_) (quotient hsplit)
    obtain ⟨d, hd⟩ := opens_of_enclosed hf (.none : Opens 0 (Cursor.start inner) _)
    exact absurd hd (ho d)
  | succ strips ih =>
    refine evaluateStep_eq (fun error inner _ _ hf => ih (fun c hc => ?_) fun hm => ?_) (quotient hsplit)
    · obtain ⟨d, hd⟩ := opens_of_enclosed hf hc
      exact ho d hd
    · refine hsplit (mem_of_mem_trim ?_)
      rw [FractionForm.ofText_eq_enclosed.mp hf]
      exact List.mem_cons_of_mem _ (List.mem_append_left _ hm)

/-- Through 255 pairs of parentheses every text is evaluated: one that opens with more is not retried. -/
theorem evaluateThrough_eq (hsplit : '/' ∈ t → ∀ s₁ s₂ numerator denominator, '/' ∉ numerator → '/' ∉ denominator →
      split s₁ s₂ numerator denominator = some (evaluateQuotient language s₁ s₂ numerator denominator)) :
    evaluateThrough language split 255 s t = some (evaluate s language t) := by
  by_cases ho : ∃ c, Opens 256 (Cursor.start t) c
  · obtain ⟨c, hc⟩ := ho
    obtain ⟨p, hp⟩ : ∃ p, grammarValue s language t.trim = .error (.grammar (.nestedTooDeeply p)) :=
      grammarValue_of_opens hc (Nat.le_refl 256)
    have hclosed : (language.fractions && leavesOpen (.grammar (.nestedTooDeeply p))) = false := Bool.and_false _
    show evaluateStep language _ split s t = _
    rw [evaluate_of_closed hp hclosed]
    simp only [evaluateStep, hp, hclosed, Bool.false_eq_true, if_false]
  · exact evaluateThrough_of_opens (fun c hc => ho ⟨c, hc⟩) hsplit

end Through

theorem evaluateParts_eq {s₁ s₂ : Setting} {numerator denominator : Text} (hn : '/' ∉ numerator) (hd : '/' ∉ denominator) :
    evaluateParts language s₁ s₂ numerator denominator =
      some (evaluateQuotient language s₁ s₂ numerator denominator) := by
  unfold evaluateParts evaluateQuotient
  rw [evaluateThrough_eq fun hm => absurd hm hn, evaluateThrough_eq fun hm => absurd hm hd]
  cases evaluate s₁ language numerator with
  | error e => rfl
  | ok x =>
    cases evaluate s₂ language denominator with
    | error e => rfl
    | ok y => rfl

theorem evaluateBounded_eq (s : Setting) (language : Language) (t : Text) :
    evaluateBounded s language t = some (evaluate s language t) :=
  evaluateThrough_eq fun _ _ _ _ _ hn hd => evaluateParts_eq hn hd

/-! ## (4) The bounds -/

open CallStack in
/-- The grammar refuses a text for its depth at position 256 or later. -/
theorem position_of_grammarValue {p : Nat}
    (h : grammarValue s language t = .error (.grammar (.nestedTooDeeply p))) : 256 ≤ p := by
  obtain ⟨m, hr, hm⟩ := reaches_grammarValue s language t
  have hi := (inv_of_reaches (inv_start t) hr).control
  rw [h] at hm
  unfold State.result? at hm
  split at hm
  · have hm := Option.some.inj hm
    split at hm
    · cases hm
    · exact absurd (ExpressionError.grammar.inj (Except.error.inj hm)) (unexpected_ne _ p)
  · rename_i e hc
    simp only [hc] at hi
    exact hi.2.2 p (Except.error.inj (Option.some.inj hm))
  · cases hm

/-- So does evaluation, whatever has been retried before. -/
theorem position_of_evaluate {p : Nat} (h : evaluate s language t = .error (.grammar (.nestedTooDeeply p))) :
    256 ≤ p := by
  induction hn : t.length using Nat.strongRecOn generalizing s t with
  | ind n ih =>
    have htrim := Text.length_trim_le t
    cases hg : grammarValue s language t.trim with
    | ok x =>
      rw [evaluate_of_value hg] at h
      cases h
    | error error =>
      by_cases ho : (language.fractions && leavesOpen error) = true
      · cases hf : FractionForm.ofText t.trim with
        | mixed m =>
          rw [evaluate_of_mixed hg ho hf] at h
          obtain ⟨d, _, hd⟩ := mapError_eq_error.mp h
          cases hd
        | enclosed inner =>
          rw [evaluate_of_enclosed hg ho hf] at h
          have := FractionForm.length_lt_of_enclosed hf
          exact ih inner.length (by omega) h rfl
        | quotient numerator denominator =>
          rw [evaluate_of_quotient hg ho hf] at h
          have := FractionForm.length_lt_of_quotient hf
          rcases bind_eq_error.mp h with h | ⟨x, _, h⟩
          · exact ih numerator.length (by omega) h rfl
          rcases bind_eq_error.mp h with h | ⟨y, _, h⟩
          · exact ih denominator.length (by omega) h rfl
          split at h <;> cases h
        | crowded =>
          rw [evaluate_of_crowded hg ho hf] at h
          cases h
        | none =>
          rw [evaluate_of_none hg ho hf] at h
          rw [Except.error.inj h] at hg
          exact position_of_grammarValue hg
      · rw [evaluate_of_closed hg (by simpa using ho)] at h
        rw [Except.error.inj h] at hg
        exact position_of_grammarValue hg

open CallStack in
/-- The recursion of evaluation is bounded, whatever the text. -/
theorem recursion_is_bounded (s : Setting) (language : Language) (t : Text) :
    -- The run for the text answers as the grammar does. In it the counter of open parts is bounded,
    -- by the position too, and so are the calls that wait.
    (∃ m, Reaches s language.factorial (CallStack.start t) m ∧ m.result? = some (grammarValue s language t)) ∧
    (∀ m, Reaches s language.factorial (CallStack.start t) m →
      m.depth ≤ 512 ∧ m.depth ≤ 2 * m.cursor.position + 2 ∧ m.frames.length ≤ 1282 ∧
      -- A call that is answered leaves the counter as it was.
      ∀ level m' x, m.control = .call level → Reaches s language.factorial m m' → m'.control = .answer x →
        m'.frames = m.frames → m'.depth = m.depth) ∧
    (∀ p, grammarValue s language t = .error (.grammar (.nestedTooDeeply p)) ∨
      evaluate s language t = .error (.grammar (.nestedTooDeeply p)) → 256 ≤ p) ∧
    -- The fraction forms are evaluated within their limits, and what opens with too many
    -- parentheses is not retried.
    evaluateBounded s language t = some (evaluate s language t) ∧
    ∀ k c, 256 ≤ k → Opens k (Cursor.start t) c → ∃ p,
      grammarValue s language t.trim = .error (.grammar (.nestedTooDeeply p)) ∧
      evaluate s language t = .error (.grammar (.nestedTooDeeply p)) := by
  refine ⟨reaches_grammarValue s language t, fun m hr => ?_, fun p h => ?_, evaluateBounded_eq s language t,
    fun k c hk ho => ?_⟩
  · have hi := inv_of_reaches (inv_start t) hr
    obtain ⟨hlimit, hposition, hframes⟩ := hi.bounds
    refine ⟨hlimit, hposition, hframes, fun level m' x hc hr' hc' hf => ?_⟩
    exact depth_of_answer hi (inv_of_reaches hi hr') hc hc' hf
  · rcases h with h | h
    · exact position_of_grammarValue h
    · exact position_of_evaluate h
  · obtain ⟨p, hp⟩ : ∃ p, grammarValue s language t.trim = .error (.grammar (.nestedTooDeeply p)) :=
      grammarValue_of_opens ho hk
    exact ⟨p, hp, evaluate_of_closed hp (Bool.and_false _)⟩

open CallStack in
theorem recursion_is_bounded_parentheses :
    let s : Setting := ⟨⟨fun _ x => x, fun x _ => x⟩, fun _ => ⟨0, twoPow_pos 53⟩⟩
    let t : Text := List.replicate 256 '('
    (∃ p, 256 ≤ p ∧ evaluate s .full t = .error (.grammar (.nestedTooDeeply p))) ∧
      ∃ m x, Reaches s true (CallStack.start ['1']) m ∧ m.control = .answer x ∧ m.depth = (CallStack.start ['1']).depth := by
  intro s t
  obtain ⟨c, ho⟩ := opens_replicate 256 (Cursor.start t) rfl
  obtain ⟨p, _, hp⟩ := (recursion_is_bounded s .full t).2.2.2.2 256 c (Nat.le_refl 256) ho
  refine ⟨⟨p, (recursion_is_bounded s .full t).2.2.1 p (Or.inr hp), hp⟩, ?_⟩
  obtain ⟨v, hv⟩ : ∃ v, grammarValue s .full ['1'] = .ok v := failure?_eq_none.mp (by decide +kernel)
  obtain ⟨m, hr, hm⟩ := (recursion_is_bounded s .full ['1']).1
  rw [hv] at hm
  obtain ⟨hc, hf⟩ := answer_of_result? hm
  exact ⟨m, v, hr, hc, ((recursion_is_bounded s .full ['1']).2.1 _ .refl).2.2.2 _ m v rfl hr hc hf⟩

end Positional.Expression
