/-
  Positional.Proofs.Expression.Nesting — parentheses that are open.

  `Text.nesting` counts the parentheses that a text opens and does not close. In a run they are the frames that wait
  for a closing one (`Nests`), since everything else that is taken has no parentheses. So up to the place of
  the cursor no parenthesis is closed that is not open, and the same holds up to the place that an error
  names (`covered_of_error`); a text with a value closes all that it opens (`covered_of_value`).

  The fraction forms look at the outer characters only. If the parenthesis that opens at the front is closed
  before the end, what is between the outer characters closes one that is not open there. It has no value in any form, and
  every place that its error names is in front of this one (`exists_error_of_unopened`,
  `outer_parentheses_need_not_match`).
-/
import Positional.Proofs.Expression.Chance
import Positional.Proofs.Expression.Horizon

namespace Positional

open Cursor Expression

/-! ## (1) Parentheses of a text -/

namespace Text

/-- The parentheses that are opened and not closed; negative where more are closed. -/
def nesting (t : Text) : Int := t.count '(' - t.count ')'

/-- Up to this place no parenthesis is closed that is not open. -/
def Covered (t : Text) (p : Nat) : Prop := ∀ n ≤ p, 0 ≤ nesting (t.take n)

/-- There are no parentheses. -/
def Flat (t : Text) : Prop := '(' ∉ t ∧ ')' ∉ t

variable {t u v w : Text} {p q : Nat}

theorem nesting_append (v w : Text) : nesting (v ++ w) = nesting v + nesting w := by
  simp only [nesting, List.count_append]
  omega

theorem Flat.nesting_eq (h : Flat w) : nesting w = 0 := by
  rw [nesting, List.count_eq_zero_of_not_mem h.1, List.count_eq_zero_of_not_mem h.2]
  rfl

theorem Flat.take (h : Flat w) (n : Nat) : Flat (w.take n) :=
  ⟨fun hm => h.1 (List.mem_of_mem_take hm), fun hm => h.2 (List.mem_of_mem_take hm)⟩

theorem flat_of_class {inClass : Char → Bool} (hopen : inClass '(' = false) (hclose : inClass ')' = false)
    (h : ∀ x ∈ w, inClass x = true) : Flat w := by
  constructor
  · intro hm
    rw [h _ hm] at hopen
    cases hopen
  · intro hm
    rw [h _ hm] at hclose
    cases hclose

theorem Flat.append (hv : Flat v) (hw : Flat w) : Flat (v ++ w) :=
  ⟨fun hm => (List.mem_append.mp hm).elim hv.1 hw.1, fun hm => (List.mem_append.mp hm).elim hv.2 hw.2⟩

theorem flat_singleton {x : Char} (hopen : x ≠ '(') (hclose : x ≠ ')') : Flat [x] :=
  ⟨fun hm => hopen (List.mem_singleton.mp hm).symm, fun hm => hclose (List.mem_singleton.mp hm).symm⟩

theorem flat_of_blank (h : Blank w) : Flat w := @flat_of_class w isBlank rfl rfl h

theorem Covered.mono (h : Covered t p) (hq : q ≤ p) : Covered t q := fun n hn => h n (Nat.le_trans hn hq)

/-- Behind the end nothing changes. -/
theorem Covered.of_length (h : Covered t t.length) (n : Nat) : 0 ≤ nesting (t.take n) := by
  rcases Nat.le_total n t.length with hn | hn
  · exact h n hn
  · rw [List.take_of_length_le hn, ← List.take_length (l := t)]
    exact h _ (Nat.le_refl _)

theorem covered_append (h : Covered v v.length) : Covered (v ++ w) v.length := fun n hn => by
  rw [List.take_append_of_le_length hn]
  exact h n hn

theorem Covered.flat (h : Covered v v.length) (hw : Flat w) : Covered (v ++ w) (v ++ w).length := fun n _ => by
  rw [List.take_append, nesting_append, (hw.take _).nesting_eq, Int.add_zero]
  exact h.of_length n

theorem Covered.concat (h : Covered v v.length) {x : Char} (hx : 0 ≤ nesting (v ++ [x])) :
    Covered (v ++ [x]) (v ++ [x]).length := fun n hn => by
  rcases Nat.lt_or_ge v.length n with hlt | hle
  · rw [List.take_of_length_le (by rw [List.length_append, List.length_singleton]; omega)]
    exact hx
  · rw [List.take_append_of_le_length hle]
    exact h n hle

end Text

open Text

/-- The place that an error names. -/
def SyntaxError.place? : SyntaxError → Option Nat
  | unexpectedCharacter _ p | unbalancedParenthesis p | nestedTooDeeply p => some p
  | empty | unexpectedEnd | unknownFunction _ | invalidNumber _ | tooManySlashes => none

def ExpressionError.place? : ExpressionError → Option Nat
  | grammar f => f.place?
  | domain _ => none

namespace CallStack

/-! ## (2) Frames that wait for a closing parenthesis -/

def Frame.pending : Frame → Int
  | .parenthesis _ => 1
  | _ => 0

def pending (frames : List Frame) : Int := frames.foldr (fun frame n => frame.pending + n) 0

/-- The parentheses that are open in front of a cursor are those of the frames. -/
structure Nests (t : Text) (frames : List Frame) (c : Cursor) : Prop where
  text : ∃ v, Spans (Cursor.start t) v c ∧ Covered v v.length ∧ nesting v = pending frames
  places : ∀ p, Frame.parenthesis p ∈ frames → p ≤ c.position

/-- A place that is named is covered. -/
def CoversPlace (t : Text) (e : ExpressionError) : Prop := ∀ p, e.place? = some p → Covered t p

/-- What every step preserves. -/
def State.Nested (t : Text) (m : State) : Prop :=
  match m.control with
  | .failed e => CoversPlace t e
  | _ => Nests t m.frames m.cursor

variable {s : Setting} {factorial : Bool} {t : Text} {m m' : State} {c d : Cursor} {frames : List Frame} {w : Text}

theorem pending_nonneg (frames : List Frame) : 0 ≤ pending frames := by
  induction frames with
  | nil => exact Int.le_refl 0
  | cons frame frames ih =>
    have hframe : 0 ≤ frame.pending := by cases frame <;> simp [Frame.pending]
    exact Int.add_nonneg hframe ih

theorem Nests.covered (h : Nests t frames c) : Covered t c.position := by
  obtain ⟨v, ⟨hv, hposition⟩, hcovered, -⟩ := h.text
  have hp : c.position = v.length := hposition.trans (Nat.zero_add _)
  have ht : t = v ++ c.rest := hv
  rw [ht, hp]
  exact covered_append hcovered

theorem Nests.flat (h : Nests t frames c) (hs : Spans c w d) (hw : Flat w) : Nests t frames d := by
  obtain ⟨v, hv, hcovered, hnesting⟩ := h.text
  refine ⟨⟨v ++ w, hv.trans hs, hcovered.flat hw, ?_⟩, fun p hp => ?_⟩
  · rw [nesting_append, hw.nesting_eq, Int.add_zero, hnesting]
  · have := h.places p hp
    have := hs.2
    omega

theorem Nests.skipBlanks (h : Nests t frames c) : Nests t frames c.skipBlanks := by
  obtain ⟨w, hw, hs⟩ := gap_skipBlanks c
  exact h.flat hs (flat_of_blank hw)

theorem Nests.token (h : Nests t frames c) {x : Char} (ht : Token x c d) (hopen : x ≠ '(') (hclose : x ≠ ')') :
    Nests t frames d := by
  obtain ⟨w, hw, hs⟩ := ht
  exact h.flat hs ((flat_of_blank hw).append (flat_singleton hopen hclose))

theorem Nests.takeRun (h : Nests t frames c) {inClass : Char → Bool} (hopen : inClass '(' = false)
    (hclose : inClass ')' = false) : Nests t frames (c.takeRun inClass).2 :=
  h.flat (spans_takeRun inClass c) (flat_of_class hopen hclose (all_takeRun inClass c))

/-- Other frames do not count. -/
theorem nests_cons {frame : Frame} (hframe : frame.pending = 0) :
    Nests t (frame :: frames) c ↔ Nests t frames c := by
  have hsum : pending (frame :: frames) = pending frames := by
    show frame.pending + pending frames = pending frames
    rw [hframe, Int.zero_add]
  have hmem {p : Nat} : Frame.parenthesis p ∈ frame :: frames ↔ Frame.parenthesis p ∈ frames := by
    rw [List.mem_cons, or_iff_right]
    rintro rfl
    cases hframe
  constructor
  · intro h
    exact ⟨hsum ▸ h.text, fun p hp => h.places p (hmem.mpr hp)⟩
  · intro h
    exact ⟨hsum.symm ▸ h.text, fun p hp => h.places p (hmem.mp hp)⟩

theorem Nests.opened (h : Nests t frames c) (hs : Spans c ['('] d) : Nests t (.parenthesis c.position :: frames) d := by
  obtain ⟨v, hv, hcovered, hnesting⟩ := h.text
  have hsum : nesting (v ++ ['(']) = pending (.parenthesis c.position :: frames) := by
    show _ = 1 + pending frames
    rw [nesting_append, hnesting, Int.add_comm]
    rfl
  refine ⟨⟨v ++ ['('], hv.trans hs, hcovered.concat (hsum ▸ pending_nonneg _), hsum⟩, fun p hp => ?_⟩
  have hposition := hs.2
  rcases List.mem_cons.mp hp with heq | hp
  · cases heq
    omega
  · have := h.places p hp
    omega

theorem Nests.closed {p : Nat} (h : Nests t (.parenthesis p :: frames) c) (ht : Token ')' c d) : Nests t frames d := by
  obtain ⟨w, hw, hs⟩ := ht
  obtain ⟨v, hv, hcovered, hnesting⟩ := h.text
  have hflat := flat_of_blank hw
  have hsum : nesting (v ++ w ++ [')']) = pending frames := by
    have hframes : pending (.parenthesis p :: frames) = 1 + pending frames := rfl
    have hlast : nesting [')'] = -1 := rfl
    rw [nesting_append, nesting_append, hnesting, hflat.nesting_eq, hframes, hlast]
    omega
  refine ⟨⟨v ++ w ++ [')'], ?_, (hcovered.flat hflat).concat (hsum ▸ pending_nonneg _), hsum⟩, fun q hq => ?_⟩
  · rw [List.append_assoc]
    exact hv.trans hs
  · have := h.places q (List.mem_cons_of_mem _ hq)
    have := hs.2
    omega

/-! ## (3) Steps -/

theorem coversPlace_of_none {e : ExpressionError} (he : e.place? = none) : CoversPlace t e := by
  intro p hp
  rw [he] at hp
  cases hp

theorem Nests.unexpected (h : Nests t frames c) : CoversPlace t (.grammar c.unexpected) := by
  intro p hp
  unfold Cursor.unexpected at hp
  split at hp
  · cases hp
    exact h.covered
  · cases hp

/-- Calls and answers are nested as their frames are. -/
theorem nested_of_nests {control : Control} {depth : Nat} (hc : control.hasFailed = false) (h : Nests t frames c) :
    State.Nested t ⟨control, c, depth, frames⟩ := by
  cases control with
  | failed => cases hc
  | call | further | products | answer => exact h

theorem nests_of_nested (h : m.Nested t) (hc : m.control.hasFailed = false) : Nests t m.frames m.cursor := by
  obtain ⟨control, c, depth, frames⟩ := m
  cases control with
  | failed => cases hc
  | call | further | products | answer => exact h

theorem nested_push {frame : Frame} (hframe : frame.pending = 0) (level : Level) (h : Nests t m.frames c) :
    (m.push frame level c).Nested t := nested_of_nests rfl ((nests_cons hframe).mpr h)

theorem nested_settle {r : Except DomainError Binary64} {next : Binary64 → State} (hn : ∀ y, (next y).Nested t) :
    (m.settle r next).Nested t := by
  cases r with
  | ok y => exact hn y
  | error d => exact coversPlace_of_none rfl

theorem nested_enter {next : State → State} (h : Nests t m.frames m.cursor)
    (hn : (next { m with depth := m.depth + 1 }).Nested t) : (m.enter next).Nested t := by
  unfold State.enter
  split
  · exact hn
  · intro p hp
    cases hp
    exact h.covered

theorem nested_callUnary (h : Nests t m.frames m.cursor) : (callUnary m).Nested t := by
  unfold callUnary
  split
  · rename_i d hplus
    exact nested_push rfl _ (h.token ((eat?_eq_some_iff rfl).mp hplus) (by decide) (by decide))
  split
  · rename_i d hminus
    exact nested_push rfl _ (h.token ((eat?_eq_some_iff rfl).mp hminus) (by decide) (by decide))
  · exact nested_push rfl _ h

/-! ### Atoms -/

theorem flat_decimalLexeme (t : Text) : Flat (decimalLexeme t) := by
  have class_lexeme : ∀ x ∈ decimalLexeme t, (x.isDigit || x == '.' || isExponentMarker x || x == '+' || x == '-') = true := by
    fun_induction decimalLexeme t <;> grind
  exact flat_of_class rfl rfl class_lexeme

/-- A literal that has been read, or a fault at a place that is covered. -/
def LiteralNests (t : Text) (frames : List Frame) (literal : Expression × Cursor) : Prop :=
  (∃ x, literal.1 = .number x ∧ Nests t frames literal.2) ∨
    ∃ f, literal.1 = .fault f ∧ CoversPlace t (.grammar f)

theorem literalNests_readDecimal (h : Nests t frames c) : LiteralNests t frames (readDecimal c) := by
  simp only [readDecimal]
  split
  · exact Or.inl ⟨_, rfl, h.flat (spans_decimalLexeme c) (flat_decimalLexeme c.rest)⟩
  · exact Or.inr ⟨_, rfl, coversPlace_of_none rfl⟩

theorem literalNests_readHexadecimal (h : Nests t frames c) (hx : isHexadecimal c.rest = true) :
    LiteralNests t frames (readHexadecimal c) := by
  obtain ⟨marker, hmarker, hs⟩ := spans_isHexadecimal hx
  have hflat : Flat ['0', marker] := by rcases hmarker with rfl | rfl <;> exact ⟨by decide, by decide⟩
  have hafter : Nests t frames ((c.advance 2).takeRun Digit.isDigit).2 := (h.flat hs hflat).takeRun rfl rfl
  simp only [readHexadecimal]
  split
  · exact Or.inr ⟨_, rfl, hafter.unexpected⟩
  split
  · exact Or.inl ⟨_, rfl, hafter⟩
  · exact Or.inr ⟨_, rfl, coversPlace_of_none rfl⟩

theorem nested_answerLiteral {literal : Expression × Cursor} (h : LiteralNests t m.frames literal) :
    (answerLiteral s m literal).Nested t := by
  unfold answerLiteral
  rcases h with ⟨x, hx, hnests⟩ | ⟨f, hf, hcovers⟩
  · split
    · exact nested_of_nests rfl hnests
    · rename_i e he
      rw [hx] at he
      obtain ⟨d, -, rfl⟩ := mapError_eq_error.mp he
      exact coversPlace_of_none rfl
  · rw [hf]
    exact hcovers

theorem nested_callNamed (h : Nests t m.frames c) : (callNamed s m c).Nested t := by
  have hafter : Nests t m.frames (c.takeRun isAlphabetic).2 := h.takeRun rfl rfl
  simp only [callNamed]
  split
  · exact nested_of_nests rfl hafter
  · exact nested_push rfl _ hafter
  · exact coversPlace_of_none rfl

theorem nested_callAtom (h : Nests t m.frames m.cursor) : (callAtom s m).Nested t := by
  have hskip := h.skipBlanks
  simp only [callAtom]
  split
  · exact hskip.unexpected
  rename_i x rest hrest
  have hnext := (spans_next hrest).1
  split
  · rename_i hx
    rw [beq_iff_eq.mp hx] at hnext
    exact nested_of_nests rfl (hskip.opened hnext)
  split
  · exact nested_answerLiteral (literalNests_readHexadecimal hskip ‹_›)
  split
  · exact nested_answerLiteral (literalNests_readDecimal hskip)
  split
  · rename_i hx
    rw [beq_iff_eq.mp hx] at hnext
    exact nested_push rfl _ (hskip.flat hnext (flat_singleton (by decide) (by decide)))
  split
  · exact nested_callNamed hskip
  · exact hskip.unexpected

theorem nested_call (level : Level) (h : Nests t m.frames m.cursor) : (call s m level).Nested t := by
  cases level with
  | chain tier => exact nested_push rfl _ h
  | factor => exact nested_enter h (nested_push rfl _ h)
  | unary => exact nested_enter h (nested_callUnary h)
  | atom => exact nested_callAtom h

/-! ### Answers -/

theorem nested_resume (x : Binary64) {frame : Frame} (h : Nests t (frame :: m.frames) m.cursor) :
    (resume s factorial m x frame).Nested t := by
  have below (hframe : frame.pending = 0) : Nests t m.frames m.cursor := (nests_cons hframe).mp h
  have here {control : Control} {depth : Nat} (hframe : frame.pending = 0) (hc : control.hasFailed = false) :
      State.Nested t ⟨control, m.cursor, depth, m.frames⟩ := nested_of_nests hc (below hframe)
  cases frame with
  | first tier => exact here rfl rfl
  | right tier op l => exact nested_settle fun y => here rfl rfl
  | operand =>
    simp only [resume]
    split
    · rename_i c he
      split at he
      · have hmark := (below rfl).token ((eat?_eq_some_iff rfl).mp he) (by decide) (by decide)
        exact nested_settle fun y => nested_of_nests rfl hmark
      · cases he
    · exact here rfl rfl
  | product l => exact nested_settle fun y => here rfl rfl
  | sign negative => exact here rfl rfl
  | base =>
    simp only [resume]
    split
    · rename_i c he
      exact nested_push rfl _ ((below rfl).token ((eat?_eq_some_iff rfl).mp he) (by decide) (by decide))
    · exact here rfl rfl
  | exponent b => exact nested_settle fun y => here rfl rfl
  | parenthesis o =>
    simp only [resume]
    split
    · rename_i c he
      exact nested_of_nests rfl (h.closed ((eat?_eq_some_iff rfl).mp he))
    · show CoversPlace t (.grammar (if _ then _ else _))
      split
      · intro p hp
        cases hp
        exact h.covered.mono (h.places o List.mem_cons_self)
      · exact h.skipBlanks.unexpected
  | argument f => exact nested_settle fun y => here rfl rfl

theorem nested_goOn {tier : Tier} (x : Binary64) (h : Nests t m.frames m.cursor) : (goOn m tier x).Nested t := by
  unfold goOn
  split
  · rename_i op c he
    have hopen : op.symbol ≠ '(' := by cases op <;> decide
    have hclose : op.symbol ≠ ')' := by cases op <;> decide
    exact nested_push rfl _ (h.token (eatOperator?_eq_some_iff.mp he).2 hopen hclose)
  · exact nested_of_nests rfl h

theorem nested_multiplyOn (x : Binary64) (h : Nests t m.frames m.cursor) : (multiplyOn m x).Nested t := by
  unfold multiplyOn
  split
  · exact nested_push rfl _ h
  · exact nested_of_nests rfl h

theorem nested_step (h : m.Nested t) (hs : step s factorial m = some m') : m'.Nested t := by
  unfold step at hs
  split at hs
  · rename_i hc
    cases hs
    exact nested_call _ (nests_of_nested h (by rw [hc]; rfl))
  · rename_i hc
    cases hs
    exact nested_goOn _ (nests_of_nested h (by rw [hc]; rfl))
  · rename_i hc
    cases hs
    exact nested_multiplyOn _ (nests_of_nested h (by rw [hc]; rfl))
  · rename_i hc
    have hnests := nests_of_nested h (by rw [hc]; rfl)
    split at hs
    · cases hs
    · rename_i hf
      cases hs
      rw [hf] at hnests
      exact nested_resume _ hnests
  · cases hs

/-! ## (4) Runs -/

theorem nested_start (t : Text) : (start t).Nested t := by
  have hstart : Nests t [] (Cursor.start t) := by
    refine ⟨⟨[], spans_refl _, fun n _ => ?_, rfl⟩, fun p hp => absurd hp List.not_mem_nil⟩
    rw [List.take_nil]
    exact Int.le_refl 0
  cases he : (Cursor.start t).skipBlanks.rest.isEmpty with
  | true =>
    simp only [start, he, if_true]
    exact coversPlace_of_none rfl
  | false =>
    simp only [start, he, Bool.false_eq_true, if_false]
    exact hstart.skipBlanks

theorem nested_of_reaches (h : m.Nested t) (hr : Reaches s factorial m m') : m'.Nested t := by
  induction hr with
  | refl => exact h
  | head hs _ ih => exact ih (nested_step h hs)

end CallStack

namespace Expression

open CallStack

variable {s : Setting} {language : Language} {t : Text}

/-- Up to the place that an error names, no parenthesis is closed that is not open. -/
theorem covered_of_error {e : ExpressionError} (h : grammarValue s language t = .error e) : CoversPlace t e := by
  obtain ⟨m, hreach, hresult⟩ := reaches_grammarValue s language t
  have hnested := nested_of_reaches (nested_start t) hreach
  rw [h] at hresult
  unfold State.result? at hresult
  unfold State.Nested at hnested
  split at hresult
  · rename_i x hc hf
    simp only [hc, hf] at hnested
    have hresult := Option.some.inj hresult
    split at hresult
    · cases hresult
    · cases hresult
      exact hnested.skipBlanks.unexpected
  · rename_i hc
    simp only [hc] at hnested
    cases hresult
    exact hnested
  · cases hresult

/-- What is opened in a text with a value is closed, and nothing else is. -/
theorem covered_of_value {x : Binary64} (h : grammarValue s language t = .ok x) : Covered t t.length ∧ t.nesting = 0 := by
  obtain ⟨m, hreach, hresult⟩ := reaches_grammarValue s language t
  have hnested := nested_of_reaches (nested_start t) hreach
  rw [h] at hresult
  obtain ⟨hc, hf⟩ := answer_of_result? hresult
  simp only [State.result?, State.Nested, hc, hf] at hresult hnested
  have hend : m.cursor.skipBlanks.rest = [] := by
    cases hrest : m.cursor.skipBlanks.rest with
    | nil => rfl
    | cons y rest =>
      rw [hrest] at hresult
      cases hresult
  obtain ⟨v, ⟨hv, -⟩, hcovered, hnesting⟩ := hnested.skipBlanks.text
  have ht : t = v := hv.trans (by rw [hend, List.append_nil])
  rw [ht]
  exact ⟨hcovered, hnesting⟩

/-! ## (5) Texts that close what is not open -/

theorem slash_mem_of_form (hf : FractionForm.ofText t ≠ .none) : (∃ inner, FractionForm.ofText t = .enclosed inner) ∨ '/' ∈ t := by
  cases hform : FractionForm.ofText t with
  | none => exact absurd hform hf
  | enclosed inner => exact Or.inl ⟨inner, rfl⟩
  | quotient numerator denominator =>
    rw [(FractionForm.ofText_eq_quotient hform).1]
    exact Or.inr (List.mem_append_right _ List.mem_cons_self)
  | mixed m =>
    obtain ⟨lead, u, trail, _, _, rfl, _, gap, _, _, rfl⟩ :=
      MixedNumber.ofText?_eq_some_iff.mp (FractionForm.ofText_eq_mixed.mp hform)
    exact Or.inr (by simp [MixedNumber.second])
  | crowded =>
    unfold FractionForm.ofText at hform
    split at hform
    · cases hform
    split at hform
    · cases hform
    split at hform
    · rename_i hcut
      rw [(Text.cutAt?_eq_some hcut).1]
      exact Or.inr (List.mem_append_right _ List.mem_cons_self)
    · cases hform

theorem nesting_take_enclosed (inner : Text) (n : Nat) :
    nesting (('(' :: (inner ++ [')'])).take (n + 1)) = 1 + nesting (inner.take n) + nesting ([')'].take (n - inner.length)) := by
  have hopen : nesting ['('] = 1 := rfl
  rw [List.take_succ_cons, List.take_append, ← List.singleton_append, nesting_append, nesting_append, hopen, Int.add_assoc]

/-- Without the outer characters one parenthesis less is open. -/
theorem exists_unopened_of_enclosed {inner : Text} {n : Nat} (h : nesting (('(' :: (inner ++ [')'])).take n) < 0) :
    ∃ k < n, nesting (inner.take k) < 0 := by
  cases n with
  | zero => cases h
  | succ k =>
    refine ⟨k, Nat.lt_succ_self k, ?_⟩
    have hlast : -1 ≤ nesting ([')'].take (k - inner.length)) := by
      cases k - inner.length <;> simp [nesting]
    rw [nesting_take_enclosed] at h
    omega

theorem exists_nesting_take_trim (t : Text) (n : Nat) : ∃ k ≤ n, nesting (t.trim.take k) = nesting (t.take n) := by
  obtain ⟨lead, trail, hlead, htrail, ht⟩ := Text.exists_trim t
  refine ⟨n - lead.length, Nat.sub_le _ _, ?_⟩
  have hsplit : t.take n = lead.take n ++ (t.trim.take (n - lead.length) ++
      trail.take (n - lead.length - t.trim.length)) := by
    conv_lhs => rw [ht, List.append_assoc, List.take_append, List.take_append]
  rw [hsplit, nesting_append, nesting_append, ((flat_of_blank hlead).take _).nesting_eq,
    ((flat_of_blank htrail).take _).nesting_eq, Int.zero_add, Int.add_zero]

/-- What closes a parenthesis that is not open has no value in any form, and its error names no place from there on. -/
theorem exists_error_of_unopened (s : Setting) (language : Language) {n : Nat} (ht : '/' ∉ t)
    (hn : nesting (t.take n) < 0) :
    ∃ e, evaluate s language t = .error e ∧ ∀ p, e.place? = some p → p < n := by
  induction hlen : t.length using Nat.strongRecOn generalizing s t n with
  | ind length ih =>
    obtain ⟨k, hk, hnesting⟩ := exists_nesting_take_trim t n
    rw [← hnesting] at hn
    have hslash : '/' ∉ t.trim := fun hm => ht (mem_of_mem_trim hm)
    cases hg : grammarValue s language t.trim with
    | ok x =>
      have := (covered_of_value hg).1.of_length k
      omega
    | error e =>
      have hplace (p : Nat) (hp : e.place? = some p) : p < n := by
        by_contra hle
        have := covered_of_error hg p hp k (by omega)
        omega
      cases ho : language.fractions && leavesOpen e with
      | false => exact ⟨e, evaluate_of_closed hg ho, hplace⟩
      | true =>
        by_cases hform : FractionForm.ofText t.trim = .none
        · exact ⟨e, evaluate_of_none hg ho hform, hplace⟩
        obtain ⟨inner, hinner⟩ := (slash_mem_of_form hform).resolve_right hslash
        have htrim := FractionForm.ofText_eq_enclosed.mp hinner
        have hlt := FractionForm.length_lt_of_enclosed hinner
        have hle := Text.length_trim_le t
        rw [htrim] at hn
        obtain ⟨j, hj, hunopened⟩ := exists_unopened_of_enclosed hn
        have hmem : '/' ∉ inner := fun hm => hslash (by rw [htrim]; simp [hm])
        obtain ⟨e', he', hplace'⟩ := ih inner.length (by omega) (s.beyond t.trim.length 0) hmem hunopened rfl
        rw [← evaluate_of_enclosed hg ho hinner] at he'
        exact ⟨e', he', fun p hp => by have := hplace' p hp; omega⟩

/-- The outer parentheses need not belong together. Where the one at the front is closed before the end and the grammar has
another error than depth, the text between the outer characters is evaluated all the same. There the same closing
parenthesis closes nothing, so the answer is an error, and if it names a place, then one in front of this parenthesis. So an
error of the grammar that names a place from this parenthesis on is not the answer. -/
theorem outer_parentheses_need_not_match (s : Setting) {language : Language} (hl : language.fractions = true) {inner : Text}
    {e : SyntaxError} {k : Nat} (hr : RandFree t) (hslash : '/' ∉ t) (ht : t.trim = '(' :: (inner ++ [')']))
    (hk : k < inner.length) (hclosed : nesting (t.trim.take (k + 2)) = 0)
    (hg : grammarValue s language t.trim = .error (.grammar e)) :
    (∀ p, e = .nestedTooDeeply p → evaluate s language t = .error (.grammar e)) ∧
    ((∀ p, e ≠ .nestedTooDeeply p) → evaluate s language t = evaluate s language inner ∧
      ∃ e', evaluate s language t = .error e' ∧ (∀ p, e'.place? = some p → p ≤ k) ∧
        ∀ p, e.place? = some p → k < p → e' ≠ .grammar e) := by
  have hform := FractionForm.ofText_eq_enclosed.mpr ht
  refine ⟨fun p hp => ?_, fun hdeep => ?_⟩
  · subst hp
    exact evaluate_of_closed hg (Bool.and_false _)
  have ho : (language.fractions && leavesOpen (.grammar e)) = true := by
    rw [hl, Bool.true_and]
    cases e with
    | nestedTooDeeply p => exact absurd rfl (hdeep p)
    | empty | unexpectedCharacter | unexpectedEnd | unbalancedParenthesis | unknownFunction | invalidNumber
    | tooManySlashes => rfl
  have hpart : inner <:+: t := (infix_of_enclosed hform).trans (trim_part t)
  have hsetting : (s.beyond t.trim.length 0).elementary = s.elementary := rfl
  have hsame : evaluate s language t = evaluate s language inner := by
    rw [evaluate_of_enclosed hg ho hform]
    exact evaluate_of_randFree hsetting language (hr.of_part hpart)
  have hunopened : nesting (inner.take (k + 1)) < 0 := by
    have hnil : [')'].take (k + 1 - inner.length) = [] := by
      rw [Nat.sub_eq_zero_of_le hk]
      rfl
    have hnone : nesting [] = 0 := rfl
    rw [ht, nesting_take_enclosed, hnil, hnone] at hclosed
    omega
  obtain ⟨e', he', hplace⟩ := exists_error_of_unopened s language (fun hm => hslash (hpart.mem hm)) hunopened
  refine ⟨hsame, e', hsame.trans he', fun p hp => Nat.le_of_lt_succ (hplace p hp), fun p hp hkp heq => ?_⟩
  have := hplace p (heq ▸ hp)
  omega

/-- In front of the second `(` is a blank, so nothing is multiplied and this parenthesis is refused. -/
theorem outer_parentheses_need_not_match_product :
    let s : Setting := ⟨⟨fun _ x => x, fun x _ => x⟩, fun _ => ⟨0, twoPow_pos 53⟩⟩
    let t : Text := "(1) (2)".toList
    let inner : Text := "1) (2".toList
    let e := SyntaxError.unexpectedCharacter '(' 4
    RandFree t ∧ '/' ∉ t ∧ t.trim = '(' :: (inner ++ [')']) ∧ nesting (t.trim.take 3) = 0 ∧
      grammarValue s .full t.trim = .error (.grammar e) ∧ evaluate s .full t = evaluate s .full inner ∧
      evaluate s .full t ≠ .error (.grammar e) := by
  intro s t inner e
  have hr : RandFree t := randFree_of_letters (by decide)
  have hslash : '/' ∉ t := by decide
  have ht : t.trim = '(' :: (inner ++ [')']) := by decide
  have hclosed : nesting (t.trim.take 3) = 0 := by decide
  have hg : grammarValue s .full t.trim = .error (.grammar e) := by decide +kernel
  obtain ⟨hsame, e', he', -, hne⟩ :=
    (outer_parentheses_need_not_match s rfl hr hslash ht (k := 1) (by decide) hclosed hg).2 fun _ => nofun
  refine ⟨hr, hslash, ht, hclosed, hg, hsame, fun h => ?_⟩
  exact hne 4 rfl (by decide) (Except.error.inj (he'.symm.trans h))

/-- The parenthesis that is refused is the first one that is closed, at a place in the text without the outer characters. -/
theorem first_parenthesis_is_refused :
    let s : Setting := ⟨⟨fun _ x => x, fun x _ => x⟩, fun _ => ⟨0, twoPow_pos 53⟩⟩
    let t : Text := "(1) (2)".toList
    RandFree t ∧ '/' ∉ t ∧ MixedNumber.ofText? t.trim = none ∧ t.trim.head? = some '(' ∧ t.trim.getLast? = some ')' ∧
      nesting (t.trim.take 3) = 0 ∧
      grammarValue s .full t.trim = .error (.grammar (.unexpectedCharacter '(' 4)) ∧
      evaluate s .full t = .error (.grammar (.unexpectedCharacter ')' 1)) := by
  intro s t
  let inner : Text := "1) (2".toList
  have hform : FractionForm.ofText t.trim = .enclosed inner := by decide
  have hg : grammarValue s .full t.trim = .error (.grammar (.unexpectedCharacter '(' 4)) := by decide +kernel
  have hinner : grammarValue (s.beyond t.trim.length 0) .full inner.trim =
      .error (.grammar (.unexpectedCharacter ')' 1)) := by decide +kernel
  have hnone : FractionForm.ofText inner.trim = .none := by decide
  refine ⟨randFree_of_letters (by decide), by decide, by decide, rfl, by decide, by decide, hg, ?_⟩
  rw [evaluate_of_enclosed hg rfl hform, evaluate_of_none hinner rfl hnone]

end Expression

end Positional
