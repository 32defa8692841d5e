/-
  Positional.Proofs.Expression.CallStackRun — what a run of single steps answers.

  From the call of a part, the run answers with the value of the expression that the reader of the
  part makes, at the place where the reader ends; or it fails with the error of that value
  (`Answers`). So the run for a whole text ends in what the grammar answers
  (`reaches_grammarValue`).

  The recursion is that of the readers: on the number of parts that may still be opened, which with
  the counter is the limit, and on the rounds of a repetition.
-/
import Positional.Proofs.Expression.CallStack
import Positional.Proofs.Expression.Reading

namespace Positional.CallStack

open Cursor Expression

/-- The run from `m` answers `r` with the counter and the frames as given, or fails as `r` does. -/
def Answers (s : Setting) (factorial : Bool) (r : Expression × Cursor) (depth : Nat) (frames : List Frame)
    (m : State) : Prop :=
  (∀ x, r.1.value s = .ok x → Reaches s factorial m ⟨.answer x, r.2, depth, frames⟩) ∧
    ∀ e, r.1.value s = .error e → ∃ m', Reaches s factorial m m' ∧ m'.control = .failed e

variable {s : Setting} {factorial : Bool}

/-! ## (1) Runs are put together -/

section Answers

variable {r r₁ : Expression × Cursor} {depth depth₁ : Nat} {frames frames₁ : List Frame} {m m₁ : State}

theorem Answers.head (h : Answers s factorial r depth frames m₁) (hs : step s factorial m = some m₁) :
    Answers s factorial r depth frames m := by
  refine ⟨fun x hx => .head hs (h.1 x hx), fun e he => ?_⟩
  obtain ⟨m', hr, hm⟩ := h.2 e he
  exact ⟨m', .head hs hr, hm⟩

theorem answers_here {x : Binary64} (h : r.1.value s = .ok x) :
    Answers s factorial r depth frames ⟨.answer x, r.2, depth, frames⟩ := by
  refine ⟨fun y hy => ?_, fun e he => ?_⟩
  · rw [h] at hy
    cases hy
    exact .refl
  · rw [h] at he
    cases he

theorem answers_failed {e : ExpressionError} (h : r.1.value s = .error e) :
    Answers s factorial r depth frames (m.fail e) := by
  refine ⟨fun x hx => ?_, fun e' he => ?_⟩
  · rw [h] at hx
    cases hx
  · rw [h] at he
    cases he
    exact ⟨_, .refl, rfl⟩

/-- The value of a part is computed first, and its failure is one of the whole. -/
theorem Answers.bind (h : Answers s factorial r₁ depth₁ frames₁ m)
    (hfail : ∀ e, r₁.1.value s = .error e → r.1.value s = .error e)
    (hnext : ∀ x, r₁.1.value s = .ok x → Answers s factorial r depth frames ⟨.answer x, r₁.2, depth₁, frames₁⟩) :
    Answers s factorial r depth frames m := by
  cases hv : r₁.1.value s with
  | ok x =>
    have hreach := h.1 x hv
    refine ⟨fun y hy => hreach.trans ((hnext x hv).1 y hy), fun e he => ?_⟩
    obtain ⟨m', hr, hm⟩ := (hnext x hv).2 e he
    exact ⟨m', hreach.trans hr, hm⟩
  | error e =>
    have he := hfail e hv
    refine ⟨fun y hy => ?_, fun e' he' => ?_⟩
    · rw [he] at hy
      cases hy
    · rw [he] at he'
      cases he'
      exact h.2 e hv

theorem answers_settle {result : Except DomainError Binary64} {next : Binary64 → State}
    (hfail : ∀ d, result = .error d → r.1.value s = .error (.domain d))
    (hnext : ∀ x, result = .ok x → Answers s factorial r depth frames (next x)) :
    Answers s factorial r depth frames (m.settle result next) := by
  cases result with
  | ok x => exact hnext x rfl
  | error d => exact answers_failed (hfail d rfl)

end Answers

theorem value_binary {op : Operator} {left right : Expression} {x y : Binary64} (hx : left.value s = .ok x)
    (hy : right.value s = .ok y) : (binary op left right).value s = (op.apply s.elementary x y).mapError .domain := by
  rw [value, hx]
  simp only [bind, Except.bind, hy]

theorem value_binary_error {op : Operator} {left right : Expression} {x : Binary64} {e : ExpressionError}
    (hx : left.value s = .ok x) (he : right.value s = .error e) : (binary op left right).value s = .error e :=
  bind_eq_error.mpr (Or.inr ⟨x, hx, bind_eq_error.mpr (Or.inl he)⟩)

/-! ## (2) Repetitions -/

variable {size depth : Nat}

/-- The run from a call answers what the reader makes of the text. -/
def Runs (s : Setting) (factorial : Bool) (size depth : Nat) (level : Level) (r : Reader) : Prop :=
  ∀ c frames, c.rest.length ≤ size → Answers s factorial (r c) depth frames ⟨.call level, c, depth, frames⟩

section Chain

variable {tier : Tier} {o : Reader} (ho : Runs s factorial size depth (operandLevel tier) o) (hm : Moves o)

include ho hm

theorem answers_further {rounds : Nat} {left : Expression} {x : Binary64} {c : Cursor} {frames : List Frame}
    (hc : c.rest.length ≤ rounds) (hs : c.rest.length ≤ size) (hx : left.value s = .ok x) :
    Answers s factorial (extendWhile (link? tier.operators o) rounds left c) depth frames
      ⟨.further tier x, c, depth, frames⟩ := by
  induction rounds generalizing left x c with
  | zero =>
    have hnone : link? tier.operators o left c = none := by
      refine link?_eq_none o left fun op _ d ht => ?_
      have := ht.length_lt
      omega
    have heat : eatOperator? tier.operators c = none := Option.map_eq_none_iff.mp hnone
    rw [extendWhile_none hnone]
    refine (answers_here hx).head ?_
    simp only [step, goOn, heat]
  | succ rounds ih =>
    cases hl : link? tier.operators o left c with
    | none =>
      have heat : eatOperator? tier.operators c = none := Option.map_eq_none_iff.mp hl
      rw [extendWhile_none hl]
      refine (answers_here hx).head ?_
      simp only [step, goOn, heat]
    | some r =>
      obtain ⟨e', c'⟩ := r
      have hlt := (passes_link? hm hl).2
      obtain ⟨op, hop, d, ht, rfl, rfl⟩ := exists_of_link? hl
      have heat : eatOperator? tier.operators c = some (op, d) := eatOperator?_eq_some_iff.mpr ⟨hop, ht⟩
      have hround : extendWhile (link? tier.operators o) (rounds + 1) left c =
          extendWhile (link? tier.operators o) rounds (.binary op left (o d).1) (o d).2 := by
        simp only [extendWhile, hl]
      have hstarts : Starts (.binary op left (o d).1)
          (extendWhile (link? tier.operators o) rounds (.binary op left (o d).1) (o d).2).1 :=
        starts_extendWhile (fun h => starts_link? h) _ _ _
      rw [hround]
      have hcall := ho d (.right tier op x :: frames) (Nat.le_trans ht.ahead.length_le hs)
      refine Answers.head (hcall.bind ?_ ?_) (by simp only [step, goOn, heat]; rfl)
      · exact fun e he => hstarts.value_error (value_binary_error hx he)
      · intro y hy
        have hvalue : (binary op left (o d).1).value s = _ := value_binary hx hy
        refine Answers.head (answers_settle ?_ ?_) rfl
        · exact fun dom hd => hstarts.value_error (by rw [hvalue, hd]; rfl)
        · exact fun z hz => ih (by omega) (by omega) (by rw [hvalue, hz]; rfl)

theorem runs_chain : Runs s factorial size depth (.chain tier) (chain size tier.operators o) := by
  intro c frames hc
  refine Answers.head ((ho c (.first tier :: frames) hc).bind ?_ ?_) rfl
  · exact fun e he => (starts_chain tier.operators o c).value_error he
  · intro x hx
    have hlen := Nat.le_trans (hm c).1.length_le hc
    exact Answers.head (answers_further ho hm hlen hlen hx) rfl

end Chain

section Products

variable {f : Reader} (hf : Runs s factorial size depth .factor f) (hm : Moves f)

include hf hm

/-- The counter is lowered when no other factor stands right after the last. -/
theorem answers_products {rounds : Nat} {left : Expression} {x : Binary64} {c : Cursor} {frames : List Frame}
    (hc : c.rest.length ≤ rounds) (hs : c.rest.length ≤ size) (hx : left.value s = .ok x) :
    Answers s factorial (extendWhile (adjoin? f) rounds left c) (depth - 1) frames
      ⟨.products x, c, depth, frames⟩ := by
  have last {left : Expression} {x : Binary64} {c : Cursor} (ha : adjoin? f left c = none) (hx : left.value s = .ok x) :
      Answers s factorial (left, c) (depth - 1) frames ⟨.products x, c, depth, frames⟩ := by
    have hnext : c.next?.any startsFactor = false := by
      rw [← Bool.not_eq_true]
      intro h
      simp only [adjoin?, h, if_true] at ha
      cases ha
    refine (answers_here hx).head ?_
    simp only [step, multiplyOn, hnext, Bool.false_eq_true, if_false]
    rfl
  induction rounds generalizing left x c with
  | zero =>
    have hnone : adjoin? f left c = none := by
      refine adjoin?_eq_none f left fun y hy => ?_
      rw [Cursor.next?, List.eq_nil_of_length_eq_zero (Nat.le_zero.mp hc)] at hy
      cases hy
    rw [extendWhile_none hnone]
    exact last hnone hx
  | succ rounds ih =>
    cases ha : adjoin? f left c with
    | none =>
      rw [extendWhile_none ha]
      exact last ha hx
    | some r =>
      obtain ⟨e', c'⟩ := r
      have hlt := (passes_adjoin? hm ha).2
      obtain ⟨⟨y, hy, hys⟩, rfl, rfl⟩ := exists_of_adjoin? ha
      have hnext : c.next?.any startsFactor = true := by rw [hy, Option.any_some, hys]
      have hround : extendWhile (adjoin? f) (rounds + 1) left c =
          extendWhile (adjoin? f) rounds (.binary .multiply left (f c).1) (f c).2 := by
        simp only [extendWhile, ha]
      have hstarts : Starts (.binary .multiply left (f c).1)
          (extendWhile (adjoin? f) rounds (.binary .multiply left (f c).1) (f c).2).1 :=
        starts_extendWhile (fun h => starts_adjoin? h) _ _ _
      rw [hround]
      refine Answers.head ((hf c (.product x :: frames) hs).bind ?_ ?_)
        (by simp only [step, multiplyOn, hnext, if_true]; rfl)
      · exact fun e he => hstarts.value_error (value_binary_error hx he)
      · intro y hy
        have hvalue : (binary .multiply left (f c).1).value s = _ := value_binary hx hy
        refine Answers.head (answers_settle ?_ ?_) rfl
        · exact fun dom hd => hstarts.value_error (by rw [hvalue, hd]; rfl)
        · exact fun z hz => ih (by omega) (by omega) (by rw [hvalue, hz]; rfl)

end Products

/-! ## (3) Atoms -/

section Atom

variable {f : Reader} (hf : Runs s factorial size depth .factor f) (hm : Moves f)

include hf

theorem answers_application {g : Function} {m : State} {c : Cursor} (hd : m.depth = depth) (hs : c.rest.length ≤ size) :
    Answers s factorial (application f g c) depth m.frames (m.push (.argument g) .factor c) := by
  subst hd
  have hfail {e : ExpressionError} (he : (f c).1.value s = .error e) :
      (Expression.call g (f c).1).value s = .error e := bind_eq_error.mpr (Or.inl he)
  refine (hf c (.argument g :: m.frames) hs).bind (fun e he => hfail he) fun x hx => ?_
  have hvalue : (Expression.call g (f c).1).value s = (g.apply s.elementary x).mapError .domain := by
    rw [value, hx]
    rfl
  refine Answers.head (answers_settle ?_ ?_) rfl
  · exact fun dom hd => by rw [application, hvalue, hd]; rfl
  · exact fun y hy => answers_here (by rw [application, hvalue, hy]; rfl)

omit hf in
theorem answers_literal {m : State} {literal : Expression × Cursor} (hd : m.depth = depth) :
    Answers s factorial literal depth m.frames (answerLiteral s m literal) := by
  subst hd
  unfold answerLiteral
  split
  · exact answers_here ‹_›
  · exact answers_failed ‹_›

theorem answers_named {m : State} {c : Cursor} (hd : m.depth = depth) (hs : c.rest.length ≤ size) :
    Answers s factorial (named f c) depth m.frames (callNamed s m c) := by
  have hlen := Nat.le_trans (Ahead.length_le ⟨_, spans_takeRun isAlphabetic c⟩) hs
  simp only [named, callNamed]
  cases hn : Identifier.ofText? (c.takeRun isAlphabetic).1 with
  | none => exact answers_failed rfl
  | some identifier =>
    cases identifier with
    | constant k =>
      subst hd
      exact answers_here rfl
    | function g => exact answers_application hf hd hlen

include hm

theorem runs_expression : Runs s factorial size depth (.chain .sum) (expression size f) := by
  have hterm : Runs s factorial size depth (operandLevel .sum) (chain size multiplicative f) := runs_chain hf hm
  exact runs_chain hterm (moves_chain hm size multiplicative)

theorem answers_enclosed {m : State} {c : Cursor} (opened : Nat) (hd : m.depth = depth) (hs : c.rest.length ≤ size) :
    Answers s factorial (enclosed size f opened c) depth m.frames (m.push (.parenthesis opened) (.chain .sum) c) := by
  subst hd
  refine (runs_expression hf hm c (.parenthesis opened :: m.frames) hs).bind ?_ fun x hx => ?_
  · exact fun e he => (starts_enclosed f opened c).value_error he
  · refine Answers.head ?_ rfl
    simp only [enclosed, resume]
    cases (expression size f c).2.eat? ')' with
    | some d => exact answers_here hx
    | none => exact answers_failed (bind_eq_error.mpr (Or.inr ⟨x, hx, rfl⟩))

theorem runs_atom : Runs s factorial size depth .atom (atom size f) := by
  intro c frames hc
  have hskip := Nat.le_trans (ahead_skipBlanks c).length_le hc
  have hnext := Nat.le_trans (ahead_advance c.skipBlanks 1).length_le hskip
  refine Answers.head ?_ rfl
  simp only [call, callAtom, atom]
  cases hd : c.skipBlanks.rest with
  | nil => exact answers_failed rfl
  | cons x t =>
    dsimp only
    split
    · exact answers_enclosed hf hm _ rfl hnext
    split
    · exact answers_literal rfl
    split
    · exact answers_literal rfl
    split
    · exact answers_application hf rfl hnext
    split
    · exact answers_named hf rfl hskip
    · exact answers_failed rfl

end Atom

/-! ## (4) Unaries and factors -/

section Enter

variable {c : Cursor} {frames : List Frame}

theorem step_unary (hd : depth < depthLimit) : step s factorial ⟨.call .unary, c, depth, frames⟩ =
    some (callUnary ⟨.call .unary, c, depth + 1, frames⟩) := by
  simp only [step, call, State.enter, hd, if_true]

theorem step_factor (hd : depth < depthLimit) : step s factorial ⟨.call .factor, c, depth, frames⟩ =
    some ⟨.call .unary, c, depth + 1, .operand :: frames⟩ := by
  simp only [step, call, State.enter, hd, if_true]
  rfl

/-- Neither is called when as many parts are open as may be. -/
theorem step_full {level : Level} (hl : level = .unary ∨ level = .factor) :
    step s factorial ⟨.call level, c, depthLimit, frames⟩ =
      some (State.fail ⟨.call level, c, depthLimit, frames⟩ (.grammar (.nestedTooDeeply c.position))) := by
  rcases hl with rfl | rfl <;> simp only [step, call, State.enter, Nat.lt_irrefl, if_false]

end Enter

section Open

variable {n : Nat} (hu : Runs s factorial size (depth + 1) .unary (unary factorial size n))
  (hf : Runs s factorial size (depth + 1) .factor (factor factorial size n)) (hd : depth < depthLimit)

include hu hf hd

theorem runs_unary : Runs s factorial size depth .unary (unary factorial size (n + 1)) := by
  intro c frames hc
  have hm := moves_factor factorial size n
  refine Answers.head ?_ (step_unary hd)
  simp only [unary, callUnary]
  cases hplus : c.eat? '+' with
  | some d =>
    have hlen := Nat.le_trans ((eat?_eq_some_iff rfl).mp hplus).ahead.length_le hc
    refine (hu d (.sign false :: frames) hlen).bind (fun e he => he) fun x hx => ?_
    exact (answers_here hx).head rfl
  | none =>
    cases hminus : c.eat? '-' with
    | some d =>
      have hlen := Nat.le_trans ((eat?_eq_some_iff rfl).mp hminus).ahead.length_le hc
      refine (hu d (.sign true :: frames) hlen).bind (fun e he => bind_eq_error.mpr (Or.inl he)) fun x hx => ?_
      have hvalue : (negation (unary factorial size n d).1).value s = .ok x.neg := by
        rw [value, hx]
        rfl
      exact (answers_here hvalue).head rfl
    | none =>
      refine (runs_atom hf hm c (.base :: frames) hc).bind (fun e he => ?_) fun x hx => Answers.head ?_ rfl
      · dsimp only
        split
        · exact bind_eq_error.mpr (Or.inl he)
        · exact he
      simp only [resume]
      cases hcaret : (atom size (factor factorial size n) c).2.eat? '^' with
      | none => exact answers_here hx
      | some d =>
        have hlen := Nat.le_trans ((moves_atom hm size c).1.trans ((eat?_eq_some_iff rfl).mp hcaret).ahead).length_le hc
        refine (hf d (.exponent x :: frames) hlen).bind (fun e he => value_binary_error hx he) fun y hy => ?_
        have hvalue : (binary .power (atom size (factor factorial size n) c).1 (factor factorial size n d).1).value s = _ :=
          value_binary hx hy
        refine Answers.head (answers_settle ?_ ?_) rfl
        · exact fun dom hdom => by rw [hvalue, hdom]; rfl
        · exact fun z hz => answers_here (by rw [hvalue, hz]; rfl)

theorem runs_factor : Runs s factorial size depth .factor (factor factorial size (n + 1)) := by
  intro c frames hc
  have hm := moves_factor factorial size n
  have hlen := Nat.le_trans (moves_unary factorial size n c).1.length_le hc
  have hstarts := starts_factor factorial size n c
  refine Answers.head ?_ (step_factor hd)
  refine (hu c (.operand :: frames) hc).bind (fun e he => hstarts.value_error he) fun x hx => Answers.head ?_ rfl
  simp only [factor, resume, postfixed]
  cases hmark : if factorial then (unary factorial size n c).2.eat? '!' else none with
  | none => exact answers_products hf hm hlen hlen hx
  | some d =>
    have hahead : Ahead (unary factorial size n c).2 d := by
      split at hmark
      · exact ((eat?_eq_some_iff rfl).mp hmark).ahead
      · cases hmark
    have hlen' := Nat.le_trans hahead.length_le hlen
    have hvalue : (Expression.factorial (unary factorial size n c).1).value s =
        (Positional.factorial x).mapError .domain := by
      rw [value, hx]
      rfl
    refine answers_settle ?_ ?_
    · exact fun dom hdom => (starts_products _ _ _).value_error (by rw [hvalue, hdom]; rfl)
    · exact fun y hy => answers_products hf hm hlen' hlen' (by rw [hvalue, hy]; rfl)

end Open

theorem runs_unary_factor {n : Nat} (hd : depth + n = depthLimit) :
    Runs s factorial size depth .unary (unary factorial size n) ∧
      Runs s factorial size depth .factor (factor factorial size n) := by
  induction n generalizing depth with
  | zero =>
    obtain rfl : depth = depthLimit := hd
    refine ⟨fun c frames _ => ?_, fun c frames _ => ?_⟩
    · exact Answers.head (answers_failed rfl) (step_full (Or.inl rfl))
    · exact Answers.head (answers_failed rfl) (step_full (Or.inr rfl))
  | succ n ih =>
    obtain ⟨hu, hf⟩ := @ih (depth + 1) (by omega)
    exact ⟨runs_unary hu hf (by omega), runs_factor hu hf (by omega)⟩

/-! ## (5) Whole texts -/

/-- The run for a text ends, and its result is the answer of the grammar. -/
theorem reaches_grammarValue (s : Setting) (language : Language) (t : Text) :
    ∃ m, Reaches s language.factorial (start t) m ∧ m.result? = some (grammarValue s language t) := by
  cases hb : (Cursor.start t).skipBlanks.rest.isEmpty with
  | true =>
    refine ⟨_, .refl, ?_⟩
    simp only [start, State.result?, grammarValue, Expression.read, hb, if_true]
    rfl
  | false =>
    have hf : Runs s language.factorial t.length 0 .factor (factor language.factorial t.length depthLimit) :=
      (runs_unary_factor (Nat.zero_add _)).2
    have hrun := runs_expression hf (moves_factor _ _ _) _ [] (length_skipBlanks_le t)
    simp only [start, grammarValue, Expression.read, hb, Bool.false_eq_true, if_false]
    generalize expression t.length (factor language.factorial t.length depthLimit) (Cursor.start t).skipBlanks = r at hrun ⊢
    obtain ⟨e, c⟩ := r
    cases hv : e.value s with
    | ok x =>
      refine ⟨_, hrun.1 x hv, ?_⟩
      simp only [State.result?]
      split
      · rw [hv]
      · rw [value, hv]
        rfl
    | error error =>
      obtain ⟨m, hr, hm⟩ := hrun.2 error hv
      refine ⟨m, hr, ?_⟩
      simp only [State.result?, hm]
      split
      · rw [hv]
      · rw [value, hv]
        rfl

end Positional.CallStack
