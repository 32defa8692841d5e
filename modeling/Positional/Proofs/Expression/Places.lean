/-
  Positional.Proofs.Expression.Places — where errors point.

  An error of the grammar speaks of a place in the text (`PointsInto`): the character that it names
  stands there, a parenthesis that is left open opens there. A character that could have gone on with
  what stands right before it is refused for one of two reasons: a blank is between the two, or it comes
  after `0x` and is no digit there (`Blamed`).

  This is what every step of the machine preserves (`orderly_step`). The frames fit together: what
  answers a frame is the part that the frame calls, and where this part ends is known from the
  grammar (`Ended`). Behind a factor no other factor stands right next to it, and behind a sum no
  operator of a sum comes next, for else they would have been read.
-/
import Positional.Proofs.Expression.CallStackRun
import Positional.Proofs.Text.Classes

namespace Positional

open Cursor Expression

/-! ## (1) What errors say -/

/-- A character that goes on with what stands right before it. -/
def goesOn (x : Char) : Bool := startsFactor x || x == '+' || x == '-'

/-- A character behind which a digit or a letter can be refused: a blank, or the last one of `0x`. -/
def Separates (y : Char) : Prop := isBlank y = true ∨ y = 'x' ∨ y = 'X'

/-- Behind `w` there is no reason to go on with `x`. -/
def Settled (w : Text) (x : Char) : Prop := goesOn x = true → ∃ y, w.getLast? = some y ∧ Separates y

/-- `x` stands at `p`, and not where it would go on with what is before it. -/
def Blamed (t : Text) (x : Char) (p : Nat) : Prop :=
  ∃ before after, t = before ++ x :: after ∧ before.length = p ∧ Settled before x

/-- What an error says of the text that it refuses. -/
def SyntaxError.PointsInto (t : Text) : SyntaxError → Prop
  | empty => Blank t
  | unexpectedCharacter x p => Blamed t x p
  | unbalancedParenthesis p => t[p]? = some '('
  | nestedTooDeeply p => p ≤ t.length
  | unexpectedEnd | unknownFunction _ | invalidNumber _ | tooManySlashes => True

/-- An operation that fails says nothing of the text. -/
def ExpressionError.PointsInto (t : Text) : ExpressionError → Prop
  | grammar f => f.PointsInto t
  | domain _ => True

theorem Blamed.getElem? {t : Text} {x : Char} {p : Nat} (h : Blamed t x p) : t[p]? = some x := by
  obtain ⟨before, after, rfl, rfl, -⟩ := h
  rw [List.getElem?_append_right (Nat.le_refl _), Nat.sub_self]
  rfl

section Places

variable {t : Text} {x : Char} {c d : Cursor}

theorem position_le_of_ahead (h : Ahead (Cursor.start t) c) : c.position ≤ t.length := by
  have hposition : c.position + c.rest.length = 0 + t.length := h.position
  omega

theorem getElem?_of_ahead (h : Ahead (Cursor.start t) c) (hx : c.next? = some x) : t[c.position]? = some x := by
  obtain ⟨v, hv, hposition⟩ := h
  obtain ⟨r, hr⟩ := List.head?_eq_some_iff.mp hx
  have ht : t = v ++ x :: r := hv.trans (by rw [hr])
  have hp : c.position = v.length := hposition.trans (Nat.zero_add _)
  rw [ht, hp, List.getElem?_append_right (Nat.le_refl _), Nat.sub_self]
  rfl

theorem Settled.append {w : Text} (h : Settled w x) (v : Text) : Settled (v ++ w) x := by
  intro hgoes
  obtain ⟨y, hy, hseparates⟩ := h hgoes
  exact ⟨y, by rw [List.getLast?_append, hy, Option.some_or], hseparates⟩

/-- The last character before the place is the last one that was moved over. -/
theorem blamed_of_spans {w : Text} (hd : Ahead (Cursor.start t) d) (hw : Spans d w c) (hx : c.next? = some x)
    (h : Settled w x) : Blamed t x c.position := by
  obtain ⟨v, hv⟩ := hd
  obtain ⟨hrest, hposition⟩ := hv.trans hw
  obtain ⟨r, hr⟩ := List.head?_eq_some_iff.mp hx
  exact ⟨v ++ w, r, hrest.trans (by rw [hr]), (hposition.trans (Nat.zero_add _)).symm, h.append v⟩

end Places

namespace CallStack

/-! ## (2) Frames that fit together -/

/-- The part that a frame has called. -/
def Frame.awaits : Frame → Level
  | .first tier | .right tier _ _ => operandLevel tier
  | .operand | .sign _ => .unary
  | .base => .atom
  | .product _ | .exponent _ | .argument _ => .factor
  | .parenthesis _ => .chain .sum

/-- The part whose answer comes next; without frames it is the whole text. -/
def awaited : List Frame → Level
  | [] => .chain .sum
  | frame :: _ => frame.awaits

/-- A parenthesis stands where the frame says that it opens. -/
def Frame.PointsInto (t : Text) : Frame → Prop
  | .parenthesis p => t[p]? = some '('
  | _ => True

/-- The part that waits in a frame is the one that the frame below has called. -/
def Linked (t : Text) : List Frame → Prop
  | [] => True
  | frame :: frames => awaited frames = frame.level ∧ frame.PointsInto t ∧ Linked t frames

/-- No factor stands right here. -/
def Apart (c : Cursor) : Prop := c.next?.any startsFactor = false

/-- What is known of the place where a part ends. -/
def Ended (level : Level) (c : Cursor) : Prop :=
  match level with
  | .chain .sum => Apart c ∧ eatOperator? Tier.sum.operators c = none
  | .chain .term | .factor => Apart c
  | .unary | .atom => True

/-- What is known of the place where a part begins: no sign stands before an atom. -/
def Begun (level : Level) (c : Cursor) : Prop :=
  match level with
  | .atom => c.eat? '+' = none ∧ c.eat? '-' = none
  | .chain _ | .factor | .unary => True

structure Orderly (t : Text) (m : State) : Prop where
  cursor : Ahead (Cursor.start t) m.cursor
  frames : Linked t m.frames
  control : match m.control with
    | .call level => awaited m.frames = level ∧ Begun level m.cursor
    | .further tier _ => awaited m.frames = .chain tier ∧ Apart m.cursor
    | .products _ => awaited m.frames = .factor
    | .answer _ => Ended (awaited m.frames) m.cursor
    | .failed e => e.PointsInto t

variable {s : Setting} {factorial : Bool} {t : Text} {m : State} {c : Cursor}

theorem ended_operand {tier : Tier} (h : Ended (operandLevel tier) c) : Apart c := by
  cases tier <;> exact h

theorem begun_operand (tier : Tier) (c : Cursor) : Begun (operandLevel tier) c := by
  cases tier <;> trivial

theorem goesOn_cases {x : Char} (h : goesOn x = true) :
    startsFactor x = true ∨ ∃ op ∈ Tier.sum.operators, op.symbol = x := by
  simp only [goesOn, Bool.or_eq_true, beq_iff_eq] at h
  rcases h with (h | rfl) | rfl
  · exact Or.inl h
  · exact Or.inr ⟨.add, List.mem_cons_self, rfl⟩
  · exact Or.inr ⟨.subtract, List.mem_cons_of_mem _ List.mem_cons_self, rfl⟩

/-- Behind a sum the next character is refused; if it could have gone on, there are blanks before it. -/
theorem pointsInto_of_ended (hc : Ahead (Cursor.start t) c) (he : Ended (.chain .sum) c) :
    c.skipBlanks.unexpected.PointsInto t := by
  obtain ⟨hapart, hnone⟩ := he
  unfold Cursor.unexpected
  split
  · rename_i x hx
    refine blamed_of_spans hc (spans_skipBlanks c) hx fun hgoes => ?_
    rcases goesOn_cases hgoes with hfactor | ⟨op, hop, rfl⟩
    · have hgap : c.rest.takeWhile isBlank ≠ [] := by
        intro hnil
        have hsame : c.skipBlanks = c := by
          rw [Cursor.skipBlanks, hnil]
          rfl
        rw [hsame] at hx
        rw [Apart, hx, Option.any_some, hfactor] at hapart
        cases hapart
      exact ⟨_, List.getLast?_eq_some_getLast hgap,
        Or.inl (List.all_eq_true.mp List.all_takeWhile _ (List.getLast_mem hgap))⟩
    · have heat := eatOperator?_eq_some_iff.mpr ⟨hop, (token_iff (isBlank_symbol op)).mpr ⟨hx, rfl⟩⟩
      rw [hnone] at heat
      cases heat
  · trivial

/-! ## (3) Steps -/

theorem Orderly.fail (h : Orderly t m) {e : ExpressionError} (he : e.PointsInto t) : Orderly t (m.fail e) :=
  ⟨h.cursor, h.frames, he⟩

theorem Orderly.enter (h : Orderly t m) {next : State → State} (hn : Orderly t (next { m with depth := m.depth + 1 })) :
    Orderly t (m.enter next) := by
  unfold State.enter
  split
  · exact hn
  · exact h.fail (position_le_of_ahead h.cursor)

/-- A frame on top calls the next part. -/
theorem orderly_push {frame : Frame} {level : Level} {frames : List Frame} {depth : Nat} (hf : Linked t frames)
    (hc : Ahead (Cursor.start t) c) (hframe : awaited frames = frame.level) (hlevel : frame.awaits = level)
    (hpoints : frame.PointsInto t) (hbegun : Begun level c) : Orderly t ⟨.call level, c, depth, frame :: frames⟩ :=
  ⟨hc, ⟨hframe, hpoints, hf⟩, hlevel, hbegun⟩

theorem orderly_callUnary (hf : Linked t m.frames) (hc : Ahead (Cursor.start t) m.cursor)
    (ha : awaited m.frames = .unary) : Orderly t (callUnary m) := by
  have sign (negative : Bool) {d : Cursor} (hd : Ahead m.cursor d) :
      Orderly t (m.push (.sign negative) .unary d) :=
    orderly_push hf (hc.trans hd) ha rfl trivial trivial
  unfold callUnary
  split
  · rename_i d hplus
    exact sign false ((eat?_eq_some_iff rfl).mp hplus).ahead
  · rename_i hplus
    split
    · rename_i d hminus
      exact sign true ((eat?_eq_some_iff rfl).mp hminus).ahead
    · rename_i hminus
      exact orderly_push hf hc ha rfl trivial ⟨hplus, hminus⟩

/-! ### Atoms -/

/-- A literal that has been read, or a fault that points into the text. -/
def LiteralPoints (t : Text) (literal : Expression × Cursor) : Prop :=
  Ahead (Cursor.start t) literal.2 ∧ ((∃ x, literal.1 = .number x) ∨ ∃ f, literal.1 = .fault f ∧ f.PointsInto t)

theorem literalPoints_readDecimal (hc : Ahead (Cursor.start t) c) : LiteralPoints t (readDecimal c) := by
  have hafter : Ahead (Cursor.start t) (c.advance (decimalLexeme c.rest).length) := hc.trans ⟨_, spans_decimalLexeme c⟩
  simp only [readDecimal]
  split
  · exact ⟨hafter, Or.inl ⟨_, rfl⟩⟩
  · exact ⟨hafter.trans (ahead_toEnd _), Or.inr ⟨_, rfl, trivial⟩⟩

/-- The character that is no digit comes right after `0x`. -/
theorem literalPoints_readHexadecimal (hc : Ahead (Cursor.start t) c) (hx : isHexadecimal c.rest = true) :
    LiteralPoints t (readHexadecimal c) := by
  obtain ⟨marker, hmarker, hs⟩ := spans_isHexadecimal hx
  have hafter : Ahead (Cursor.start t) ((c.advance 2).takeRun Digit.isDigit).2 :=
    hc.trans (Ahead.trans ⟨_, hs⟩ ⟨_, spans_takeRun _ _⟩)
  have hend := hafter.trans (ahead_toEnd _)
  simp only [readHexadecimal]
  split
  · rename_i hempty
    refine ⟨hend, Or.inr ⟨_, rfl, ?_⟩⟩
    have hrun := spans_takeRun Digit.isDigit (c.advance 2)
    rw [List.isEmpty_iff.mp hempty] at hrun
    unfold Cursor.unexpected
    split
    · rename_i x hnext
      exact blamed_of_spans hc (hs.trans hrun) hnext fun _ => ⟨marker, rfl, Or.inr hmarker⟩
    · trivial
  split
  · exact ⟨hafter, Or.inl ⟨_, rfl⟩⟩
  · exact ⟨hend, Or.inr ⟨_, rfl, trivial⟩⟩

section Atom

variable (h : Orderly t m) (ha : awaited m.frames = .atom)

include h ha

theorem orderly_answer_atom (hc : Ahead (Cursor.start t) c) (x : Binary64) (depth : Nat) :
    Orderly t ⟨.answer x, c, depth, m.frames⟩ := by
  refine ⟨hc, h.frames, ?_⟩
  show Ended (awaited m.frames) c
  rw [ha]
  trivial

theorem orderly_answerLiteral {literal : Expression × Cursor} (hl : LiteralPoints t literal) :
    Orderly t (answerLiteral s m literal) := by
  obtain ⟨hc, hliteral⟩ := hl
  unfold answerLiteral
  split
  · exact orderly_answer_atom h ha hc _ _
  · rename_i e he
    refine h.fail ?_
    rcases hliteral with ⟨x, hx⟩ | ⟨g, hg, hpoints⟩
    · rw [hx] at he
      obtain ⟨d, -, rfl⟩ := mapError_eq_error.mp he
      trivial
    · rw [hg] at he
      cases he
      exact hpoints

theorem orderly_callNamed (hc : Ahead (Cursor.start t) c) : Orderly t (callNamed s m c) := by
  have hafter : Ahead (Cursor.start t) (c.takeRun isAlphabetic).2 := hc.trans ⟨_, spans_takeRun _ _⟩
  simp only [callNamed]
  split
  · exact orderly_answer_atom h ha hafter _ _
  · exact orderly_push h.frames hafter ha rfl trivial trivial
  · exact h.fail trivial

theorem orderly_callAtom (hsign : m.cursor.eat? '+' = none ∧ m.cursor.eat? '-' = none) : Orderly t (callAtom s m) := by
  have hskip := h.cursor.trans (ahead_skipBlanks m.cursor)
  simp only [callAtom]
  split
  · rename_i hnil
    refine h.fail ?_
    simp only [Cursor.unexpected, Cursor.next?, hnil]
    trivial
  rename_i x rest hrest
  have hnext : m.cursor.skipBlanks.next? = some x := by rw [Cursor.next?, hrest]; rfl
  have hahead := hskip.trans (ahead_advance m.cursor.skipBlanks 1)
  split
  · rename_i hx
    refine orderly_push h.frames hahead ha rfl ?_ trivial
    show t[m.cursor.skipBlanks.position]? = some '('
    rw [getElem?_of_ahead hskip hnext, beq_iff_eq.mp hx]
  rename_i hparenthesis
  split
  · exact orderly_answerLiteral h ha (literalPoints_readHexadecimal hskip ‹_›)
  split
  · exact orderly_answerLiteral h ha (literalPoints_readDecimal hskip)
  rename_i hdecimal
  split
  · exact orderly_push h.frames hahead ha rfl trivial trivial
  rename_i hroot
  split
  · exact orderly_callNamed h ha hskip
  rename_i hname
  refine h.fail ?_
  simp only [Cursor.unexpected, hnext]
  refine blamed_of_spans h.cursor (spans_skipBlanks m.cursor) hnext fun hgoes => ?_
  -- a sign would have been taken before, and anything else that starts a factor just now
  have sign (symbol : Char) (hb : isBlank symbol = false) (hnone : m.cursor.eat? symbol = none) : x ≠ symbol := by
    rintro rfl
    exact (eat?_eq_none_iff hb).mp hnone _ ((token_iff hb).mpr ⟨hnext, rfl⟩)
  have hplus := sign '+' rfl hsign.1
  have hminus := sign '-' rfl hsign.2
  simp_all [goesOn, startsFactor]

end Atom

theorem orderly_call {level : Level} (h : Orderly t m) (hc : m.control = .call level) : Orderly t (call s m level) := by
  have hi := h.control
  simp only [hc] at hi
  obtain ⟨ha, hbegun⟩ := hi
  cases level with
  | chain tier =>
    exact orderly_push h.frames h.cursor ha rfl trivial (begun_operand tier _)
  | factor =>
    show Orderly t (m.enter fun m => m.push .operand .unary m.cursor)
    refine h.enter (orderly_push h.frames h.cursor ?_ rfl trivial trivial)
    exact ha
  | unary => exact h.enter (orderly_callUnary h.frames h.cursor ha)
  | atom => exact orderly_callAtom h ha hbegun

/-! ### Answers -/

theorem orderly_resume {x : Binary64} {frame : Frame} {frames : List Frame} (h : Orderly t m) (hc : m.control = .answer x)
    (hf : m.frames = frame :: frames) : Orderly t (resume s factorial { m with frames } x frame) := by
  have hended := h.control
  have hframes := h.frames
  simp only [hc, hf] at hended
  rw [hf] at hframes
  obtain ⟨ha, hpoints, hlinked⟩ := hframes
  have settle {r : Except DomainError Binary64} {next : Binary64 → State} (hn : ∀ y, Orderly t (next y)) :
      Orderly t (State.settle { m with frames } r next) := by
    cases r with
    | ok y => exact hn y
    | error d => exact ⟨h.cursor, hlinked, trivial⟩
  have leave (y : Binary64) (hw : awaited frames = .unary) : Orderly t (State.leave { m with frames } y m.cursor) := by
    refine ⟨h.cursor, hlinked, ?_⟩
    show Ended (awaited frames) m.cursor
    rw [hw]
    trivial
  cases frame with
  | first tier => exact ⟨h.cursor, hlinked, ha, ended_operand hended⟩
  | right tier op l => exact settle fun y => ⟨h.cursor, hlinked, ha, ended_operand hended⟩
  | operand =>
    simp only [resume]
    split
    · rename_i c he
      split at he
      · have hahead := h.cursor.trans ((eat?_eq_some_iff rfl).mp he).ahead
        exact settle fun y => ⟨hahead, hlinked, ha⟩
      · cases he
    · exact ⟨h.cursor, hlinked, ha⟩
  | product l => exact settle fun y => ⟨h.cursor, hlinked, ha⟩
  | sign negative => exact leave _ ha
  | base =>
    simp only [resume]
    split
    · rename_i c he
      have hahead := h.cursor.trans ((eat?_eq_some_iff rfl).mp he).ahead
      exact orderly_push hlinked hahead ha rfl trivial trivial
    · exact leave x ha
  | exponent b => exact settle fun y => leave y ha
  | parenthesis o =>
    simp only [resume]
    split
    · rename_i c he
      have hahead := h.cursor.trans ((eat?_eq_some_iff rfl).mp he).ahead
      refine ⟨hahead, hlinked, ?_⟩
      show Ended (awaited frames) c
      rw [ha]
      trivial
    · refine ⟨h.cursor, hlinked, ?_⟩
      show (if _ then _ else _ : SyntaxError).PointsInto t
      split
      · exact hpoints
      · exact pointsInto_of_ended h.cursor hended
  | argument f =>
    refine settle fun y => ⟨h.cursor, hlinked, ?_⟩
    show Ended (awaited frames) m.cursor
    rw [ha]
    trivial

theorem orderly_goOn {tier : Tier} {x : Binary64} (h : Orderly t m) (hc : m.control = .further tier x) :
    Orderly t (goOn m tier x) := by
  have hi := h.control
  simp only [hc] at hi
  obtain ⟨ha, hapart⟩ := hi
  unfold goOn
  split
  · rename_i op c he
    have hahead := h.cursor.trans (eatOperator?_eq_some_iff.mp he).2.ahead
    exact orderly_push h.frames hahead ha rfl trivial (begun_operand tier _)
  · rename_i hnone
    refine ⟨h.cursor, h.frames, ?_⟩
    show Ended (awaited m.frames) m.cursor
    rw [ha]
    cases tier with
    | sum => exact ⟨hapart, hnone⟩
    | term => exact hapart

theorem orderly_multiplyOn {x : Binary64} (h : Orderly t m) (hc : m.control = .products x) :
    Orderly t (multiplyOn m x) := by
  have ha := h.control
  simp only [hc] at ha
  unfold multiplyOn
  split
  · exact orderly_push h.frames h.cursor ha rfl trivial trivial
  · rename_i hnext
    refine ⟨h.cursor, h.frames, ?_⟩
    show Ended (awaited m.frames) m.cursor
    rw [ha]
    exact Bool.eq_false_iff.mpr hnext

theorem orderly_step {m' : State} (h : Orderly t m) (hs : step s factorial m = some m') : Orderly t m' := by
  unfold step at hs
  split at hs
  · cases hs
    exact orderly_call h ‹_›
  · cases hs
    exact orderly_goOn h ‹_›
  · cases hs
    exact orderly_multiplyOn h ‹_›
  · split at hs
    · cases hs
    · cases hs
      exact orderly_resume h ‹_› ‹_›
  · cases hs

/-! ## (4) Over a run -/

theorem orderly_start (t : Text) : Orderly t (start t) := by
  have hskip := ahead_skipBlanks (Cursor.start t)
  cases he : (Cursor.start t).skipBlanks.rest.isEmpty with
  | true =>
    have hblank : Blank t := blank_iff.mpr (List.isEmpty_iff.mp he)
    simp only [start, he, if_true]
    exact ⟨hskip, trivial, hblank⟩
  | false =>
    simp only [start, he, Bool.false_eq_true, if_false]
    exact ⟨hskip, trivial, rfl, trivial⟩

theorem orderly_of_reaches {m' : State} (ho : Orderly t m) (h : Reaches s factorial m m') : Orderly t m' := by
  induction h with
  | refl => exact ho
  | head hs _ ih => exact ih (orderly_step ho hs)

/-- What is left behind a whole text is refused like what is left in a parenthesis. -/
theorem Orderly.pointsInto (h : Orderly t m) {f : SyntaxError} (hr : m.result? = some (.error (.grammar f))) :
    f.PointsInto t := by
  unfold State.result? at hr
  split at hr
  · rename_i x hc hf
    have hended := h.control
    simp only [hc, hf] at hended
    have hr := Option.some.inj hr
    split at hr
    · cases hr
    · cases hr
      exact pointsInto_of_ended h.cursor hended
  · rename_i hc
    have hfailed := h.control
    simp only [hc] at hfailed
    rw [Except.error.inj (Option.some.inj hr)] at hfailed
    exact hfailed
  · cases hr

end CallStack

/-- Every error of the grammar points into the text. -/
theorem pointsInto_of_grammarValue {s : Setting} {language : Language} {t : Text} {f : SyntaxError}
    (h : grammarValue s language t = .error (.grammar f)) : f.PointsInto t := by
  obtain ⟨m, hreach, hresult⟩ := CallStack.reaches_grammarValue s language t
  rw [h] at hresult
  exact (CallStack.orderly_of_reaches (CallStack.orderly_start t) hreach).pointsInto hresult

end Positional
