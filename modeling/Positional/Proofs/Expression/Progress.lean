/-
  Positional.Proofs.Expression.Progress — reading moves on and ends.

  A step of the machine takes characters that are there, or it leaves the cursor where it is and goes on to a lower
  phase (`progresses_step`). Calls have the lowest phases, in the order in which the grammar descends, and an answer has a
  higher one the more frames wait for it. So between a call and its answer at least one character is taken
  (`takes_of_answer`).

  Phases are bounded because frames are, and a character outweighs them all (`rank_lt_of_step`). So a run has
  boundedly many steps for each character (`steps_add_rank_le`), whatever is read and at whatever depth.
-/
import Positional.Proofs.Expression.Horizon

namespace Positional

open Cursor Expression

/-! ## (1) Parts of a text -/

namespace Cursor

variable {t w : Text} {c d e : Cursor}

/-- At least one character lies between. -/
def Takes (c d : Cursor) : Prop := ∃ w ≠ [], Spans c w d

theorem Takes.ahead (h : Takes c d) : Ahead c d := by
  obtain ⟨w, _, hs⟩ := h
  exact ⟨w, hs⟩

theorem Takes.position_lt (h : Takes c d) : c.position < d.position := by
  obtain ⟨w, hw, hs⟩ := h
  have := hs.2
  have := List.length_pos_iff.mpr hw
  omega

theorem Takes.length_lt (h : Takes c d) : d.rest.length < c.rest.length := by
  have := h.ahead.position
  have := h.position_lt
  omega

theorem Ahead.trans_takes (h : Ahead c d) (h' : Takes d e) : Takes c e := by
  obtain ⟨v, hv⟩ := h
  obtain ⟨w, hw, hs⟩ := h'
  exact ⟨v ++ w, List.append_ne_nil_of_right_ne_nil v hw, hv.trans hs⟩

theorem Takes.trans_ahead (h : Takes c d) (h' : Ahead d e) : Takes c e := by
  obtain ⟨w, hw, hs⟩ := h
  obtain ⟨v, hv⟩ := h'
  exact ⟨w ++ v, List.append_ne_nil_of_left_ne_nil hw v, hs.trans hv⟩

theorem Token.takes {x : Char} (h : Token x c d) : Takes c d := by
  obtain ⟨w, _, hs⟩ := h
  exact ⟨w ++ [x], List.append_ne_nil_of_right_ne_nil w (List.cons_ne_nil x []), hs⟩

theorem Passes.takes (h : Passes c d) (hc : c.rest ≠ []) : Takes c d := by
  obtain ⟨w, hs⟩ := h.1
  refine ⟨w, ?_, hs⟩
  rintro rfl
  have hlt := h.position_lt hc
  rw [hs.2, List.length_nil, Nat.add_zero] at hlt
  exact Nat.lt_irrefl _ hlt

/-- `w` is the part of `t` between two places, and stops on the way are places in `t` as well. -/
structure Slice (t : Text) (c : Cursor) (w : Text) (d : Cursor) : Prop where
  spans : Spans c w d
  position_le : c.position ≤ d.position ∧ d.position ≤ t.length
  text_eq : w = (t.drop c.position).take (d.position - c.position)
  within : ∀ n ≤ w.length, Within t (c.advance n) ∧ (c.advance n).position = c.position + n

theorem slice_of_spans (hc : Within t c) (h : Spans c w d) : Slice t c w d := by
  have hd : Within t d := by
    rw [← advance_eq h]
    exact hc.advance _
  have hlen : d.position - c.position = w.length := by rw [h.2, Nat.add_sub_cancel_left]
  refine ⟨h, ⟨Nat.le.intro h.2.symm, hd.1⟩, ?_, fun n hn => ⟨hc.advance n, ?_⟩⟩
  · rw [← hc.2, h.1, hlen, List.take_left]
  · have hsplit : c.rest = w.take n ++ (w.drop n ++ d.rest) := by
      rw [← List.append_assoc, List.take_append_drop]
      exact h.1
    have hstop := (spans_advance hsplit).1
    rw [List.length_take, Nat.min_eq_left hn] at hstop
    rw [hstop.2, List.length_take, Nat.min_eq_left hn]

theorem within_of_ahead (h : Ahead (Cursor.start t) c) : Within t c := by
  obtain ⟨w, hw⟩ := h
  rw [← advance_eq hw]
  exact (within_start t).advance _

theorem Within.next?_eq (h : Within t c) : c.next? = t[c.position]? := by
  rw [Cursor.next?, h.2, List.head?_drop]

theorem Within.next?_eq_none_iff (h : Within t c) : c.next? = none ↔ c.position = t.length := by
  rw [h.next?_eq, List.getElem?_eq_none_iff]
  exact ⟨Nat.le_antisymm h.1, Nat.le_of_eq ∘ Eq.symm⟩

/-- A symbol is eaten with the blanks before it, and nothing else ever is. -/
theorem eat?_iff_slice (hc : Within t c) {x : Char} :
    c.eat? x = some d ↔ isBlank x = false ∧ ∃ w, Blank w ∧ Slice t c (w ++ [x]) d := by
  constructor
  · intro h
    have hx : isBlank x = false := by
      simp only [Cursor.eat?, Cursor.eatAny?, Option.map_eq_some_iff, Option.bind_eq_bind, Option.bind_eq_some_iff] at h
      obtain ⟨_, ⟨y, hy, _, hchosen, _⟩, _⟩ := h
      split at hchosen
      · rename_i hyx
        exact hyx ▸ next?_skipBlanks hy
      · cases hchosen
    obtain ⟨w, hw, hs⟩ := (eat?_eq_some_iff hx).mp h
    exact ⟨hx, w, hw, slice_of_spans hc hs⟩
  · rintro ⟨hx, w, hw, hs⟩
    exact (eat?_eq_some_iff hx).mpr ⟨w, hw, hs.spans⟩

end Cursor

namespace CallStack

/-! ## (2) Phases -/

/-- How far the grammar is from an atom. -/
def Level.phase : Level → Nat
  | .atom => 1
  | .unary => 2
  | .factor => 3
  | .chain .term => 4
  | .chain .sum => 5

/-- Where the cursor stays, a run goes down: frames get their answers, then parts are called. -/
def State.phase (m : State) : Nat :=
  match m.control with
  | .failed _ => 0
  | .call level => level.phase
  | .answer _ => 2 * m.frames.length + 6
  | .further _ _ | .products _ => 2 * m.frames.length + 7

def State.Progresses (m m' : State) : Prop :=
  Takes m.cursor m'.cursor ∨ (m'.cursor = m.cursor ∧ m'.phase < m.phase)

variable {s : Setting} {factorial : Bool} {t : Text} {m m' : State}

theorem Level.phase_pos (level : Level) : 0 < level.phase := by
  rcases level with ⟨_ | _⟩ | _ | _ | _ <;> decide

theorem Level.phase_le (level : Level) : level.phase ≤ 5 := by
  rcases level with ⟨_ | _⟩ | _ | _ | _ <;> decide

theorem phase_operandLevel (tier : Tier) : (operandLevel tier).phase < (Level.chain tier).phase := by
  cases tier <;> decide

theorem phase_of_call {level : Level} (hc : m.control = .call level) : m.phase = level.phase := by
  simp only [State.phase, hc]

theorem phase_of_answer {x : Binary64} (hc : m.control = .answer x) : m.phase = 2 * m.frames.length + 6 := by
  simp only [State.phase, hc]

theorem progresses_fail {e : ExpressionError} (hc : m'.cursor = m.cursor) (hm : 0 < m.phase) :
    m.Progresses (m'.fail e) := Or.inr ⟨hc, hm⟩

theorem progresses_enter {next : State → State} (hm : 0 < m.phase) (hn : m.Progresses (next { m with depth := m.depth + 1 })) :
    m.Progresses (m.enter next) := by
  unfold State.enter
  split
  · exact hn
  · exact progresses_fail rfl hm

/-! ### Calls -/

theorem progresses_callUnary {depth : Nat} (hc : m.control = .call .unary) :
    m.Progresses (callUnary { m with depth }) := by
  unfold callUnary
  split
  · rename_i d hplus
    exact Or.inl ((eat?_eq_some_iff rfl).mp hplus).takes
  split
  · rename_i d hminus
    exact Or.inl ((eat?_eq_some_iff rfl).mp hminus).takes
  · refine Or.inr ⟨rfl, ?_⟩
    rw [phase_of_call hc]
    show Level.atom.phase < Level.unary.phase
    decide

theorem progresses_answerLiteral {literal : Expression × Cursor} (hm : 0 < m.phase) (hl : Takes m.cursor literal.2) :
    m.Progresses (answerLiteral s m literal) := by
  unfold answerLiteral
  split
  · exact Or.inl hl
  · exact progresses_fail rfl hm

theorem progresses_callNamed {c : Cursor} (hm : 0 < m.phase) (ht : Takes m.cursor (c.takeRun isAlphabetic).2) :
    m.Progresses (callNamed s m c) := by
  simp only [callNamed]
  split
  · exact Or.inl ht
  · exact Or.inl ht
  · exact progresses_fail rfl hm

theorem progresses_callAtom (hm : 0 < m.phase) : m.Progresses (callAtom s m) := by
  have hskip := ahead_skipBlanks m.cursor
  simp only [callAtom]
  split
  · exact progresses_fail rfl hm
  rename_i x rest hrest
  have hne : m.cursor.skipBlanks.rest ≠ [] := by rw [hrest]; exact List.cons_ne_nil _ _
  have hnext : Takes m.cursor (m.cursor.skipBlanks.advance 1) :=
    hskip.trans_takes ⟨[x], List.cons_ne_nil _ _, (spans_next hrest).1⟩
  split
  · exact Or.inl hnext
  split
  · rename_i hx
    exact progresses_answerLiteral hm (hskip.trans_takes ((passes_readHexadecimal hx).takes hne))
  split
  · rename_i hx
    have hlexeme : decimalLexeme m.cursor.skipBlanks.rest ≠ [] := by
      rw [hrest]
      exact decimalLexeme_ne_nil (by simpa using hx)
    exact progresses_answerLiteral hm (hskip.trans_takes ((passes_readDecimal hlexeme).takes hne))
  split
  · exact Or.inl hnext
  split
  · rename_i hx
    have hname : (m.cursor.skipBlanks.takeRun isAlphabetic).1 ≠ [] := by
      simp [Cursor.takeRun, hrest, hx]
    exact progresses_callNamed hm (hskip.trans_takes ⟨_, hname, spans_takeRun _ _⟩)
  · exact progresses_fail rfl hm

theorem progresses_call {level : Level} (hc : m.control = .call level) : m.Progresses (call s m level) := by
  have hphase := phase_of_call hc
  have hm : 0 < m.phase := hphase ▸ level.phase_pos
  cases level with
  | chain tier =>
    refine Or.inr ⟨rfl, ?_⟩
    rw [hphase]
    exact phase_operandLevel tier
  | factor =>
    refine progresses_enter hm (Or.inr ⟨rfl, ?_⟩)
    rw [hphase]
    show Level.unary.phase < Level.factor.phase
    decide
  | unary => exact progresses_enter hm (progresses_callUnary hc)
  | atom => exact progresses_callAtom hm

/-! ### Answers -/

theorem progresses_resume {x : Binary64} {frame : Frame} {frames : List Frame} (hc : m.control = .answer x)
    (hf : m.frames = frame :: frames) : m.Progresses (resume s factorial { m with frames } x frame) := by
  have hphase : m.phase = 2 * frames.length + 8 := by
    rw [phase_of_answer hc, hf, List.length_cons, Nat.mul_add]
  have hm : 0 < m.phase := by omega
  have settle {r : Except DomainError Binary64} {next : Binary64 → State} (hn : ∀ y, m.Progresses (next y)) :
      m.Progresses (State.settle { m with frames } r next) := by
    cases r with
    | ok y => exact hn y
    | error d => exact progresses_fail rfl hm
  -- what the frame makes of an answer is at most one phase above the next answer
  have stay {control : Control} {depth : Nat} (hlow : State.phase ⟨control, m.cursor, depth, frames⟩ < 2 * frames.length + 8) :
      m.Progresses ⟨control, m.cursor, depth, frames⟩ := Or.inr ⟨rfl, hphase ▸ hlow⟩
  have further (tier : Tier) (y : Binary64) : m.Progresses ⟨.further tier y, m.cursor, m.depth, frames⟩ :=
    stay (Nat.lt_succ_self _)
  have products (y : Binary64) : m.Progresses ⟨.products y, m.cursor, m.depth, frames⟩ := stay (Nat.lt_succ_self _)
  have answer (y : Binary64) (depth : Nat) : m.Progresses ⟨.answer y, m.cursor, depth, frames⟩ :=
    stay (Nat.lt_succ_of_lt (Nat.lt_succ_self _))
  cases frame with
  | first tier => exact further tier x
  | right tier op l => exact settle fun y => further tier y
  | operand =>
    simp only [resume]
    split
    · rename_i c he
      split at he
      · exact settle fun y => Or.inl ((eat?_eq_some_iff rfl).mp he).takes
      · cases he
    · exact products x
  | product l => exact settle fun y => products y
  | sign negative => exact answer _ _
  | base =>
    simp only [resume]
    split
    · rename_i c he
      exact Or.inl ((eat?_eq_some_iff rfl).mp he).takes
    · exact answer x _
  | exponent b => exact settle fun y => answer y _
  | parenthesis o =>
    simp only [resume]
    split
    · rename_i c he
      exact Or.inl ((eat?_eq_some_iff rfl).mp he).takes
    · exact progresses_fail rfl hm
  | argument f => exact settle fun y => answer y _

theorem progresses_goOn {tier : Tier} {x : Binary64} (hc : m.control = .further tier x) : m.Progresses (goOn m tier x) := by
  unfold goOn
  split
  · rename_i op c he
    exact Or.inl (eatOperator?_eq_some_iff.mp he).2.takes
  · refine Or.inr ⟨rfl, ?_⟩
    simp only [State.phase, hc]
    exact Nat.lt_succ_self _

theorem progresses_multiplyOn {x : Binary64} (hc : m.control = .products x) : m.Progresses (multiplyOn m x) := by
  have hphase : m.phase = 2 * m.frames.length + 7 := by simp only [State.phase, hc]
  unfold multiplyOn
  split
  · refine Or.inr ⟨rfl, ?_⟩
    rw [hphase]
    show Level.factor.phase < 2 * m.frames.length + 7
    have : Level.factor.phase = 3 := rfl
    omega
  · refine Or.inr ⟨rfl, ?_⟩
    rw [hphase]
    exact Nat.lt_succ_self _

theorem progresses_step (h : step s factorial m = some m') : m.Progresses m' := by
  unfold step at h
  split at h
  · cases h
    exact progresses_call ‹_›
  · cases h
    exact progresses_goOn ‹_›
  · cases h
    exact progresses_multiplyOn ‹_›
  · split at h
    · cases h
    · cases h
      exact progresses_resume ‹_› ‹_›
  · cases h

/-! ## (3) Runs -/

theorem progresses_of_reaches (h : Reaches s factorial m m') : m' = m ∨ m.Progresses m' := by
  induction h with
  | refl => exact Or.inl rfl
  | head hs _ ih =>
    rcases ih with rfl | hrest
    · exact Or.inr (progresses_step hs)
    rcases progresses_step hs, hrest with ⟨hfirst | ⟨hstay, hlow⟩, hrest | ⟨hstay', hlow'⟩⟩
    · exact Or.inr (Or.inl (hfirst.trans_ahead hrest.ahead))
    · exact Or.inr (Or.inl (hstay' ▸ hfirst))
    · exact Or.inr (Or.inl (hstay ▸ hrest))
    · exact Or.inr (Or.inr ⟨hstay'.trans hstay, Nat.lt_trans hlow' hlow⟩)

/-- A call is in a lower phase than its answer, so characters are between them. -/
theorem takes_of_answer {level : Level} {x : Binary64} (h : Reaches s factorial m m') (hc : m.control = .call level)
    (hc' : m'.control = .answer x) : Takes m.cursor m'.cursor := by
  rcases progresses_of_reaches h with rfl | htakes | ⟨-, hlow⟩
  · rw [hc] at hc'
    cases hc'
  · exact htakes
  · have := level.phase_le
    rw [phase_of_call hc, phase_of_answer hc'] at hlow
    omega

/-- A character counts more than any phase. -/
def State.rank (m : State) : Nat := 2572 * m.cursor.rest.length + m.phase

theorem phase_le_of_inv (h : Inv m) : m.phase ≤ 2571 := by
  have hframes := h.bounds.2.2
  unfold State.phase
  split
  · exact Nat.zero_le _
  · exact Nat.le_trans (Level.phase_le _) (by decide)
  all_goals omega

theorem rank_lt_of_step (hi : Inv m) (h : step s factorial m = some m') : m'.rank < m.rank := by
  have hphase := phase_le_of_inv (inv_step hi h)
  unfold State.rank
  rcases progresses_step h with htakes | ⟨hstay, hlow⟩
  · have := htakes.length_lt
    omega
  · rw [hstay]
    omega

theorem steps_add_rank_le {run : Nat → State} {n : Nat} (hi : Inv (run 0))
    (h : ∀ i < n, step s factorial (run i) = some (run (i + 1))) : n + (run n).rank ≤ (run 0).rank := by
  suffices hrun : Inv (run n) ∧ n + (run n).rank ≤ (run 0).rank from hrun.2
  induction n with
  | zero => exact ⟨hi, Nat.le_of_eq (Nat.zero_add _)⟩
  | succ n ih =>
    obtain ⟨hinv, hle⟩ := ih fun i hn => h i (Nat.lt_succ_of_lt hn)
    have hstep := h n (Nat.lt_succ_self n)
    have := rank_lt_of_step hinv hstep
    exact ⟨inv_step hinv hstep, by omega⟩

theorem rank_start_le (t : Text) : (start t).rank ≤ 2572 * t.length + 5 := by
  have hlen := length_skipBlanks_le t
  have hphase : (start t).phase ≤ 5 := by
    simp only [start]
    cases (Cursor.start t).skipBlanks.rest.isEmpty
    · exact Level.phase_le (.chain .sum)
    · exact Nat.zero_le _
  have hrest : (start t).cursor.rest.length ≤ t.length := hlen
  unfold State.rank
  omega

/-- Reading moves on and ends. In every state of a run the cursor stands in the text and sees the character that stands
there, none at the end alone; a step leaves it in its place or takes a part of the text. A part of the grammar that is
answered has taken a character at least. A symbol is eaten with the blanks before it, or the cursor stays; what
literals and names consist of is the part of the text between two places. Every run ends after boundedly many steps for
each character, and the last state has the answer of the grammar. -/
theorem reading_moves_on_and_ends (s : Setting) (language : Language) (t : Text) :
    (∀ m, Reaches s language.factorial (start t) m → m.cursor.position ≤ t.length ∧
      m.cursor.next? = t[m.cursor.position]? ∧ (m.cursor.next? = none ↔ m.cursor.position = t.length) ∧
      ∀ m', step s language.factorial m = some m' → m'.cursor = m.cursor ∨
        ∃ w ≠ [], Slice t m.cursor w m'.cursor) ∧
    (∀ m m' level x, Reaches s language.factorial (start t) m → m.control = .call level →
      Reaches s language.factorial m m' → m'.control = .answer x → m.cursor.position < m'.cursor.position) ∧
    (∀ c, Within t c →
      (∀ x d, c.eat? x = some d ↔ isBlank x = false ∧ ∃ w, Blank w ∧ Slice t c (w ++ [x]) d) ∧
      (∀ inClass, Slice t c (c.takeRun inClass).1 (c.takeRun inClass).2) ∧
      Slice t c (decimalLexeme c.rest) (c.advance (decimalLexeme c.rest).length) ∧
      (isHexadecimal c.rest = true → ∃ marker, Slice t c ['0', marker] (c.advance 2))) ∧
    (∀ (run : Nat → State) n, run 0 = start t → (∀ i < n, step s language.factorial (run i) = some (run (i + 1))) →
      n ≤ 2572 * t.length + 5) ∧
    ∃ m, Reaches s language.factorial (start t) m ∧ step s language.factorial m = none ∧
      m.result? = some (grammarValue s language t) := by
  refine ⟨fun m hm => ?_, fun m m' level x _ hc h hc' => (takes_of_answer h hc hc').position_lt, fun c hc => ?_,
    fun run n h0 h => ?_, ?_⟩
  · have hwithin := within_of_ahead (orderly_of_reaches (orderly_start t) hm).cursor
    refine ⟨hwithin.1, hwithin.next?_eq, hwithin.next?_eq_none_iff, fun m' hs => ?_⟩
    rcases progresses_step hs with ⟨w, hw, hspans⟩ | ⟨hstay, -⟩
    · exact Or.inr ⟨w, hw, slice_of_spans hwithin hspans⟩
    · exact Or.inl hstay
  · refine ⟨fun x d => eat?_iff_slice hc, fun inClass => slice_of_spans hc (spans_takeRun inClass c),
      slice_of_spans hc (spans_decimalLexeme c), fun hx => ?_⟩
    obtain ⟨marker, -, hs⟩ := spans_isHexadecimal hx
    exact ⟨marker, slice_of_spans hc hs⟩
  · have hsteps := steps_add_rank_le (h0 ▸ inv_start t) h
    have hstart := rank_start_le t
    rw [h0] at hsteps
    omega
  · obtain ⟨m, hreach, hresult⟩ := reaches_grammarValue s language t
    exact ⟨m, hreach, step_of_result? hresult, hresult⟩

/-- In `0x1e+ 2!` the `e` is a digit and the blank is taken with the `2`. -/
theorem reading_moves_on_and_ends_hexadecimal :
    let s : Setting := ⟨⟨fun _ x => x, fun x _ => x⟩, fun _ => ⟨0, twoPow_pos 53⟩⟩
    let t := "0x1e+ 2!".toList
    let c := Cursor.start t
    isHexadecimal c.rest = true ∧ (c.advance 2).takeRun Digit.isDigit = ("1e".toList, ⟨"+ 2!".toList, 4⟩) ∧
      (∃ marker, Slice t c ['0', marker] (c.advance 2)) ∧
      (∃ d w, Cursor.eat? '!' ⟨"!".toList, 7⟩ = some d ∧ Blank w ∧ Slice t ⟨"!".toList, 7⟩ (w ++ ['!']) d) ∧
      (∃ m, Reaches s true (start t) m ∧ m.control = .answer (Binary64.ofNat 32) ∧ 0 < m.cursor.position ∧
        m.cursor.position ≤ t.length) ∧
      ∀ (run : Nat → State) n, run 0 = start t → (∀ i < n, step s true (run i) = some (run (i + 1))) → n ≤ 20581 := by
  intro s t c
  obtain ⟨hplaces, hanswers, hparts, hruns, m, hreach, -, hresult⟩ := reading_moves_on_and_ends s .full t
  have hvalue : grammarValue s .full t = .ok (Binary64.ofNat 32) := by decide +kernel
  rw [hvalue] at hresult
  have hanswer := (answer_of_result? hresult).1
  have hhexadecimal : isHexadecimal c.rest = true := rfl
  have hmark : Cursor.eat? '!' ⟨"!".toList, 7⟩ = some ⟨[], 8⟩ := by decide
  obtain ⟨-, w, hw, hslice⟩ := ((hparts ⟨"!".toList, 7⟩ ⟨by decide, by decide⟩).1 '!' ⟨[], 8⟩).mp hmark
  refine ⟨hhexadecimal, by decide, (hparts c (within_start t)).2.2.2 hhexadecimal, ⟨_, w, hmark, hw, hslice⟩,
    ⟨m, hreach, hanswer, ?_, (hplaces m hreach).1⟩, hruns⟩
  exact hanswers (start t) m (.chain .sum) _ .refl rfl hreach hanswer

end CallStack

end Positional
