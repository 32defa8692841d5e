/-
  Positional.Proofs.Expression.CallStack — reading and evaluating in single steps.

  The readers of expressions call each other, and values are computed when the calls return. Here
  every call is a step of its own. A `State` has the calls that wait for an answer (`frames`)
  and a counter of the factors and unaries that are open (`depth`): it is raised when one is
  called, where at most `depthLimit` may be open, and lowered when it answers. The first failure
  ends the run.

  `Inv` is what every step preserves (`inv_step`). A frame remembers which part is waiting in it,
  and the frames below it are those of the call of this part. They are bounded by the place of
  this call (`Supported`): two parts more can be open only behind another character, and
  five frames more only with two parts more. An answer has moved on from there.

  Proved, over every state that a run reaches (`inv_of_reaches`, `Inv.bounds`, `depth_of_answer`):
  - at most 512 parts are open, and at most 2p + 2 at position p;
  - at most 1282 frames wait;
  - a part is refused for its depth at position 256 or later;
  - a call that is answered leaves the counter as it found it.
-/
import Mathlib.Algebra.GroupWithZero.Nat
import Positional.Expression
import Positional.Proofs.Expression.Derivation
import Positional.Proofs.Expression.Movement

namespace Positional

namespace CallStack

open Cursor Expression

/-! ## (1) States -/

/-- The parts of the grammar that are called. -/
inductive Level where
  | chain (tier : Tier)
  | factor
  | unary
  | atom
  deriving DecidableEq

def operandLevel : Tier → Level
  | .sum => .chain .term
  | .term => .factor

/-- A call that waits for the answer of another. -/
inductive Frame where
  /-- A chain, for its first operand. -/
  | first (tier : Tier)
  | right (tier : Tier) (op : Operator) (left : Binary64)
  /-- A factor, for its unary. -/
  | operand
  | product (left : Binary64)
  /-- A unary, for the one after its sign. -/
  | sign (negative : Bool)
  | base
  | exponent (base : Binary64)
  | parenthesis (opened : Nat)
  | argument (f : Function)

/-- What happens next. `further` and `products` go on with a chain and a factor that have the value
so far. -/
inductive Control where
  | call (level : Level)
  | further (tier : Tier) (x : Binary64)
  | products (x : Binary64)
  | answer (x : Binary64)
  | failed (error : ExpressionError)

structure State where
  control : Control
  cursor : Cursor
  depth : Nat
  frames : List Frame

namespace State

def fail (m : State) (error : ExpressionError) : State := { m with control := .failed error }

/-- Calls a part at `c`; the frame waits for it. -/
def push (m : State) (frame : Frame) (level : Level) (c : Cursor) : State :=
  ⟨.call level, c, m.depth, frame :: m.frames⟩

/-- Goes on with the result of an operation. -/
def settle (m : State) (r : Except DomainError Binary64) (next : Binary64 → State) : State :=
  match r with
  | .ok x => next x
  | .error d => m.fail (.domain d)

/-- Opens a factor or a unary, unless too many are open. -/
def enter (m : State) (next : State → State) : State :=
  if m.depth < depthLimit then next { m with depth := m.depth + 1 }
  else m.fail (.grammar (.nestedTooDeeply m.cursor.position))

/-- A factor or a unary answers at `c`. -/
def leave (m : State) (x : Binary64) (c : Cursor) : State := ⟨.answer x, c, m.depth - 1, m.frames⟩

end State

/-! ## (2) Steps -/

section Steps

variable (s : Setting) (factorial : Bool)

def callUnary (m : State) : State :=
  match m.cursor.eat? '+' with
  | some c => m.push (.sign false) .unary c
  | none =>
    match m.cursor.eat? '-' with
    | some c => m.push (.sign true) .unary c
    | none => m.push .base .atom m.cursor

/-- A literal is evaluated where it is read. -/
def answerLiteral (m : State) (literal : Expression × Cursor) : State :=
  match literal.1.value s with
  | .ok x => ⟨.answer x, literal.2, m.depth, m.frames⟩
  | .error e => m.fail e

def callNamed (m : State) (c : Cursor) : State :=
  let (name, after) := c.takeRun isAlphabetic
  match Identifier.ofText? name with
  | some (.constant k) => ⟨.answer (k.value s.chance c.position), after, m.depth, m.frames⟩
  | some (.function f) => m.push (.argument f) .factor after
  | none => m.fail (.grammar (.unknownFunction name))

def callAtom (m : State) : State :=
  let c := m.cursor.skipBlanks
  match c.rest with
  | [] => m.fail (.grammar c.unexpected)
  | x :: _ =>
    if x == '(' then m.push (.parenthesis c.position) (.chain .sum) (c.advance 1)
    else if isHexadecimal c.rest then answerLiteral s m (readHexadecimal c)
    else if x.isDigit || x == '.' then answerLiteral s m (readDecimal c)
    else if x == '√' then m.push (.argument .squareRoot) .factor (c.advance 1)
    else if isAlphabetic x then callNamed s m c
    else m.fail (.grammar c.unexpected)

def call (m : State) : Level → State
  | .chain tier => m.push (.first tier) (operandLevel tier) m.cursor
  | .factor => m.enter fun m => m.push .operand .unary m.cursor
  | .unary => m.enter callUnary
  | .atom => callAtom s m

/-- The frame gets the answer `x`; `m` has the frames below it. -/
def resume (m : State) (x : Binary64) : Frame → State
  | .first tier => { m with control := .further tier x }
  | .right tier op left => m.settle (op.apply s.elementary left x) fun y => { m with control := .further tier y }
  | .operand =>
    match if factorial then m.cursor.eat? '!' else none with
    | some c => m.settle (Positional.factorial x) fun y => { m with control := .products y, cursor := c }
    | none => { m with control := .products x }
  | .product left =>
    m.settle (Operator.multiply.apply s.elementary left x) fun y => { m with control := .products y }
  | .sign negative => m.leave (if negative then x.neg else x) m.cursor
  | .base =>
    match m.cursor.eat? '^' with
    | some c => m.push (.exponent x) .factor c
    | none => m.leave x m.cursor
  | .exponent base => m.settle (Operator.power.apply s.elementary base x) fun y => m.leave y m.cursor
  | .parenthesis opened =>
    match m.cursor.eat? ')' with
    | some c => { m with control := .answer x, cursor := c }
    | none =>
      let c := m.cursor.skipBlanks
      m.fail (.grammar (if c.rest.isEmpty then .unbalancedParenthesis opened else c.unexpected))
  | .argument f => m.settle (f.apply s.elementary x) fun y => { m with control := .answer y }

def goOn (m : State) (tier : Tier) (x : Binary64) : State :=
  match eatOperator? tier.operators m.cursor with
  | some (op, c) => m.push (.right tier op x) (operandLevel tier) c
  | none => { m with control := .answer x }

def multiplyOn (m : State) (x : Binary64) : State :=
  if m.cursor.next?.any startsFactor then m.push (.product x) .factor m.cursor else m.leave x m.cursor

/-- The next state, if the run has not ended. -/
def step (m : State) : Option State :=
  match m.control with
  | .call level => some (call s m level)
  | .further tier x => some (goOn m tier x)
  | .products x => some (multiplyOn m x)
  | .answer x =>
    match m.frames with
    | [] => none
    | frame :: frames => some (resume s factorial { m with frames } x frame)
  | .failed _ => none

inductive Reaches : State → State → Prop
  | refl {m : State} : Reaches m m
  | head {m m₁ m₂ : State} : step s factorial m = some m₁ → Reaches m₁ m₂ → Reaches m m₂

end Steps

variable {s : Setting} {factorial : Bool}

theorem Reaches.trans {m₁ m₂ m₃ : State} (h : Reaches s factorial m₁ m₂) (h' : Reaches s factorial m₂ m₃) :
    Reaches s factorial m₁ m₃ := by
  induction h with
  | refl => exact h'
  | head hs _ ih => exact .head hs (ih h')

/-- The call that reads a whole text, which is refused if it is blank. -/
def start (t : Text) : State :=
  let c := (Cursor.start t).skipBlanks
  ⟨if c.rest.isEmpty then .failed (.grammar .empty) else .call (.chain .sum), c, 0, []⟩

/-- What a run that has ended answers: nothing may be left of the text. -/
def State.result? (m : State) : Option (Except ExpressionError Binary64) :=
  match m.control, m.frames with
  | .answer x, [] =>
    let c := m.cursor.skipBlanks
    some (if c.rest.isEmpty then .ok x else .error (.grammar c.unexpected))
  | .failed e, _ => some (.error e)
  | _, _ => none

theorem answer_of_result? {m : State} {x : Binary64} (h : m.result? = some (.ok x)) :
    m.control = .answer x ∧ m.frames = [] := by
  unfold State.result? at h
  split at h
  · rename_i y hc hf
    have h := Option.some.inj h
    split at h
    · rw [← Except.ok.inj h]
      exact ⟨hc, hf⟩
    · cases h
  · cases h
  · cases h

/-! ## (3) What every step preserves -/

/-- The part that waits in a frame. -/
def Frame.level : Frame → Level
  | .first tier | .right tier _ _ => .chain tier
  | .operand | .product _ => .factor
  | .sign _ | .base | .exponent _ => .unary
  | .parenthesis _ | .argument _ => .atom

/-- Factors and unaries are counted. -/
def Level.weight : Level → Nat
  | .factor | .unary => 1
  | _ => 0

def opened (frames : List Frame) : Nat := (frames.map (·.level.weight)).sum

/-- The parts that may be open, beyond two for each character, when a part is called. -/
def Level.ahead : Level → Nat
  | .chain _ | .factor => 0
  | .unary => 1
  | .atom => 2

/-- From an atom to the next there are five calls at most, two of which are counted. -/
def Level.reserve : Level → Nat
  | .chain .sum => 2
  | .chain .term => 4
  | .factor => 6
  | .unary => 3
  | .atom => 0

/-- Above these frames the part may be called at position `p`. -/
structure Supported (level : Level) (p : Nat) (frames : List Frame) : Prop where
  depth : opened frames ≤ 2 * p + level.ahead
  height : 2 * frames.length + 2 ≤ 5 * opened frames + level.reserve

/-- Each frame was called at position `p` or before it. -/
def Grounded (p : Nat) : List Frame → Prop
  | [] => True
  | frame :: frames => Supported frame.level p frames ∧ Grounded p frames

structure Inv (m : State) : Prop where
  limit : m.depth ≤ depthLimit
  control : match m.control with
    | .call level => m.depth = opened m.frames ∧ Supported level m.cursor.position m.frames ∧
        Grounded m.cursor.position m.frames
    | .further tier _ => m.depth = opened m.frames ∧ ∃ q < m.cursor.position, Supported (.chain tier) q m.frames ∧
        Grounded q m.frames
    | .products _ => m.depth = opened m.frames + 1 ∧ ∃ q < m.cursor.position, Supported .factor q m.frames ∧
        Grounded q m.frames
    | .answer _ => m.depth = opened m.frames ∧ ∃ q < m.cursor.position, Grounded q m.frames
    | .failed e => m.depth ≤ 2 * m.cursor.position + 2 ∧ m.frames.length ≤ 1282 ∧
        ∀ p, e = .grammar (.nestedTooDeeply p) → 256 ≤ p

theorem opened_cons (frame : Frame) (frames : List Frame) :
    opened (frame :: frames) = frame.level.weight + opened frames := rfl

theorem Supported.mono {level : Level} {p q : Nat} {frames : List Frame} (h : Supported level p frames) (hq : p ≤ q) :
    Supported level q frames :=
  ⟨by have := h.depth; omega, h.height⟩

theorem Grounded.mono {p q : Nat} {frames : List Frame} (h : Grounded p frames) (hq : p ≤ q) : Grounded q frames := by
  induction frames with
  | nil => trivial
  | cons frame frames ih => exact ⟨h.1.mono hq, ih h.2⟩

/-- The bounds that a state has from the invariant. -/
theorem Inv.bounds {m : State} (h : Inv m) :
    m.depth ≤ depthLimit ∧ m.depth ≤ 2 * m.cursor.position + 2 ∧ m.frames.length ≤ 1282 := by
  have hl : m.depth ≤ 512 := h.limit
  refine ⟨h.limit, ?_⟩
  have hc := h.control
  obtain ⟨control, c, depth, frames⟩ := m
  dsimp only at hl hc ⊢
  have called {level : Level} {q : Nat} (hs : Supported level q frames) (hq : q ≤ c.position)
      (hd : opened frames ≤ 512) : opened frames ≤ 2 * c.position + level.ahead ∧ frames.length ≤ 1282 := by
    have := hs.depth
    have := hs.height
    have : level.reserve ≤ 6 := by rcases level with ⟨_ | _⟩ | _ | _ | _ <;> decide
    exact ⟨by omega, by omega⟩
  cases control with
  | call level =>
    obtain ⟨hd, hs, _⟩ := hc
    have := called hs (Nat.le_refl _) (by omega)
    have : level.ahead ≤ 2 := by rcases level with ⟨_ | _⟩ | _ | _ | _ <;> decide
    omega
  | further tier x =>
    obtain ⟨hd, q, hq, hs, _⟩ := hc
    have : opened frames ≤ 2 * c.position + 0 ∧ frames.length ≤ 1282 := called hs (Nat.le_of_lt hq) (by omega)
    omega
  | products x =>
    obtain ⟨hd, q, hq, hs, _⟩ := hc
    have : opened frames ≤ 2 * c.position + 0 ∧ frames.length ≤ 1282 := called hs (Nat.le_of_lt hq) (by omega)
    omega
  | answer x =>
    obtain ⟨hd, q, hq, hg⟩ := hc
    cases frames with
    | nil => simp [opened] at hd ⊢; omega
    | cons frame frames =>
      rw [opened_cons] at hd
      have hdepth := hg.1.depth
      have hheight := hg.1.height
      rw [List.length_cons]
      generalize frame.level = level at hd hdepth hheight
      rcases level with ⟨_ | _⟩ | _ | _ | _ <;>
        simp only [Level.weight, Level.ahead, Level.reserve] at hd hdepth hheight <;> omega
  | failed e => exact ⟨hc.1, hc.2.1⟩

/-! ## (4) Steps preserve it -/

theorem Inv.fail {m : State} (h : Inv m) {error : ExpressionError}
    (he : ∀ p, error = .grammar (.nestedTooDeeply p) → 256 ≤ p) : Inv (m.fail error) :=
  ⟨h.limit, h.bounds.2.1, h.bounds.2.2, he⟩

/-- From a frame on top, and a part that is called at `p`, the next part is called. -/
theorem inv_push {frame : Frame} {level : Level} {c : Cursor} {p depth : Nat} {frames : List Frame}
    (hs : Supported frame.level p frames) (hg : Grounded p frames) (hp : p ≤ c.position)
    (hd : depth = opened (frame :: frames)) (hl : depth ≤ depthLimit)
    (hdepth : opened (frame :: frames) ≤ 2 * c.position + level.ahead)
    (hheight : frame.level.reserve + 2 ≤ 5 * frame.level.weight + level.reserve) :
    Inv ⟨.call level, c, depth, frame :: frames⟩ := by
  refine ⟨hl, hd, ⟨hdepth, ?_⟩, hs.mono hp, hg.mono hp⟩
  have := hs.height
  rw [opened_cons, List.length_cons]
  omega

theorem reserve_operand (tier : Tier) :
    (Level.chain tier).reserve + 2 ≤ 5 * (Level.chain tier).weight + (operandLevel tier).reserve := by
  cases tier <;> decide

theorem inv_callUnary {c : Cursor} {depth : Nat} {frames : List Frame} (hl : depth ≤ depthLimit)
    (hd : depth = opened frames + 1) (hs : Supported .unary c.position frames) (hg : Grounded c.position frames)
    (control : Control) : Inv (callUnary ⟨control, c, depth, frames⟩) := by
  have hdepth := hs.depth
  have sign (negative : Bool) {d : Cursor} (hd : c.position < d.position) :
      Inv ⟨.call .unary, d, depth, .sign negative :: frames⟩ := by
    refine inv_push hs hg (Nat.le_of_lt hd) ?_ hl ?_
      (show Level.unary.reserve + 2 ≤ 5 * Level.unary.weight + Level.unary.reserve by decide)
    · simp only [opened_cons, Frame.level, Level.weight]; omega
    · simp only [opened_cons, Frame.level, Level.weight, Level.ahead] at hdepth ⊢; omega
  unfold callUnary
  dsimp only
  split
  · rename_i d ht
    exact sign false ((eat?_eq_some_iff rfl).mp ht).position_lt
  split
  · rename_i d ht
    exact sign true ((eat?_eq_some_iff rfl).mp ht).position_lt
  · refine inv_push hs hg (Nat.le_refl _) ?_ hl ?_ (by decide)
    · simp only [opened_cons, Frame.level, Level.weight]; omega
    · simp only [opened_cons, Frame.level, Level.weight, Level.ahead] at hdepth ⊢; omega

theorem unexpected_ne (c : Cursor) (p : Nat) : c.unexpected ≠ .nestedTooDeeply p := by
  unfold Cursor.unexpected
  split <;> exact fun h => nomatch h

/-- A literal is refused as a number or at a character, not for its depth. -/
theorem literal_error {literal : Expression × Cursor}
    (h : (∃ x, literal.1 = .number x) ∨ ∃ e, literal.1 = .fault e ∧ ∀ p, e ≠ .nestedTooDeeply p) {p : Nat} :
    literal.1.value s ≠ .error (.grammar (.nestedTooDeeply p)) := by
  intro he
  rcases h with ⟨x, hx⟩ | ⟨e, hx, hn⟩
  · rw [hx] at he
    obtain ⟨d, _, hd⟩ := mapError_eq_error.mp he
    cases hd
  · rw [hx] at he
    cases he
    exact hn p rfl

theorem readDecimal_cases (c : Cursor) : (∃ x, (readDecimal c).1 = .number x) ∨
    ∃ e, (readDecimal c).1 = .fault e ∧ ∀ p, e ≠ .nestedTooDeeply p := by
  simp only [readDecimal]
  split
  · exact Or.inl ⟨_, rfl⟩
  · exact Or.inr ⟨_, rfl, fun _ h => by cases h⟩

theorem readHexadecimal_cases (c : Cursor) : (∃ x, (readHexadecimal c).1 = .number x) ∨
    ∃ e, (readHexadecimal c).1 = .fault e ∧ ∀ p, e ≠ .nestedTooDeeply p := by
  simp only [readHexadecimal]
  split
  · exact Or.inr ⟨_, rfl, unexpected_ne _⟩
  split
  · exact Or.inl ⟨_, rfl⟩
  · exact Or.inr ⟨_, rfl, fun _ h => by cases h⟩

section Atom

variable {m : State} (h : Inv m) (hc : m.control = .call .atom)

include h hc

theorem inv_answerLiteral {literal : Expression × Cursor} (hp : m.cursor.position < literal.2.position)
    (hl : (∃ x, literal.1 = .number x) ∨ ∃ e, literal.1 = .fault e ∧ ∀ p, e ≠ .nestedTooDeeply p) :
    Inv (answerLiteral s m literal) := by
  have hi := h.control
  simp only [hc] at hi
  unfold answerLiteral
  split
  · exact ⟨h.limit, hi.1, _, hp, hi.2.2⟩
  · rename_i e he
    exact h.fail fun p hp => absurd (hp ▸ he) (literal_error hl)

/-- What an atom calls comes after another character. -/
theorem inv_push_atom {frame : Frame} {level : Level} {c : Cursor} (hf : frame.level = .atom)
    (hlevel : level = .chain .sum ∨ level = .factor) (hp : m.cursor.position < c.position) :
    Inv (m.push frame level c) := by
  have hi := h.control
  simp only [hc] at hi
  obtain ⟨hd, hs, hg⟩ := hi
  have hdepth := hs.depth
  refine inv_push (hf ▸ hs) hg (Nat.le_of_lt hp) ?_ h.limit ?_ ?_
  · simp only [opened_cons, hf, Level.weight]; omega
  · simp only [opened_cons, hf, Level.weight, Level.ahead] at hdepth ⊢; omega
  · rw [hf]
    rcases hlevel with rfl | rfl <;> decide

theorem inv_callNamed {c : Cursor} (hp : m.cursor.position ≤ c.position) (hr : (c.takeRun isAlphabetic).1 ≠ []) :
    Inv (callNamed s m c) := by
  have hi := h.control
  simp only [hc] at hi
  have hlt : m.cursor.position < (c.takeRun isAlphabetic).2.position := by
    have := (spans_takeRun isAlphabetic c).2
    have := List.length_pos_iff.mpr hr
    omega
  simp only [callNamed]
  split
  · exact ⟨h.limit, hi.1, _, hlt, hi.2.2⟩
  · exact inv_push_atom h hc rfl (Or.inr rfl) hlt
  · exact h.fail fun _ he => nomatch he

theorem inv_callAtom : Inv (callAtom s m) := by
  have hskip := (ahead_skipBlanks m.cursor).position_le
  have hunexpected : Inv (m.fail (.grammar m.cursor.skipBlanks.unexpected)) :=
    h.fail fun p he => absurd (ExpressionError.grammar.inj he) (unexpected_ne _ p)
  simp only [callAtom]
  split
  · exact hunexpected
  · rename_i x t hd
    have hne : m.cursor.skipBlanks.rest ≠ [] := by rw [hd]; exact List.cons_ne_nil _ _
    have hnext := ((spans_next hd).1.passes (List.cons_ne_nil x [])).position_lt hne
    split
    · exact inv_push_atom h hc rfl (Or.inl rfl) (by omega)
    split
    · rename_i hx
      have := (passes_readHexadecimal hx).position_lt hne
      exact inv_answerLiteral h hc (by omega) (readHexadecimal_cases _)
    split
    · rename_i hx
      have hlex : decimalLexeme m.cursor.skipBlanks.rest ≠ [] := by
        rw [hd]
        exact decimalLexeme_ne_nil (by simpa using hx)
      have := (passes_readDecimal hlex).position_lt hne
      exact inv_answerLiteral h hc (by omega) (readDecimal_cases _)
    split
    · exact inv_push_atom h hc rfl (Or.inr rfl) (by omega)
    split
    · rename_i hx
      refine inv_callNamed h hc hskip ?_
      simp only [takeRun, hd, List.takeWhile_cons_of_pos hx]
      exact List.cons_ne_nil _ _
    · exact hunexpected

end Atom

/-- With 512 parts open, the position is at least 256. -/
theorem Inv.enter {m : State} (h : Inv m) {next : State → State} (hp : m.depth ≤ 2 * m.cursor.position + 1)
    (hn : m.depth < depthLimit → Inv (next { m with depth := m.depth + 1 })) : Inv (m.enter next) := by
  unfold State.enter
  split
  · rename_i hlt
    exact hn hlt
  · rename_i hge
    unfold depthLimit at hge
    refine h.fail fun p he => ?_
    cases he
    omega

theorem inv_call {m : State} {level : Level} (h : Inv m) (hc : m.control = .call level) : Inv (call s m level) := by
  have hi := h.control
  simp only [hc] at hi
  obtain ⟨hd, hs, hg⟩ := hi
  have hdepth := hs.depth
  cases level with
  | chain tier =>
    refine inv_push hs hg (Nat.le_refl _) ?_ h.limit ?_ ?_
    · simp only [opened_cons, Frame.level, Level.weight]; omega
    · cases tier <;> simp only [operandLevel, opened_cons, Frame.level, Level.weight, Level.ahead] at hdepth ⊢ <;> omega
    · exact reserve_operand tier
  | factor =>
    simp only [Level.ahead] at hdepth
    show Inv (m.enter fun m => m.push .operand .unary m.cursor)
    refine h.enter (by omega) fun hlt => ?_
    refine inv_push (show Supported Frame.operand.level _ _ from hs) hg (Nat.le_refl _) ?_ hlt ?_ (by decide)
    · simp only [opened_cons, Frame.level, Level.weight]; omega
    · simp only [opened_cons, Frame.level, Level.weight, Level.ahead]; omega
  | unary =>
    simp only [Level.ahead] at hdepth
    show Inv (m.enter callUnary)
    refine h.enter (by omega) fun hlt => ?_
    exact inv_callUnary hlt (by rw [hd]) hs hg _
  | atom => exact inv_callAtom h hc

section Answer

variable {m : State} {x : Binary64} {frame : Frame} {frames : List Frame} (h : Inv m) (hc : m.control = .answer x)
  (hf : m.frames = frame :: frames)

include h hf

/-- The failure of an operation on the answer. -/
theorem inv_fail_below {e : ExpressionError} (he : ∀ p, e = .grammar (.nestedTooDeeply p) → 256 ≤ p) :
    Inv (State.fail { m with frames } e) := by
  have hlen := h.bounds.2.2
  rw [hf] at hlen
  exact ⟨h.limit, h.bounds.2.1, Nat.le_of_succ_le hlen, he⟩

theorem inv_settle_below {r : Except DomainError Binary64} {next : Binary64 → State} (hn : ∀ y, Inv (next y)) :
    Inv (State.settle { m with frames } r next) := by
  cases r with
  | ok y => exact hn y
  | error d => exact inv_fail_below h hf fun _ he => nomatch he

include hc

/-- A factor or a unary is no longer open. -/
theorem inv_leave_below (hw : frame.level.weight = 1) (y : Binary64) :
    Inv (State.leave { m with frames } y m.cursor) := by
  have hi := h.control
  simp only [hc, hf] at hi
  obtain ⟨hd, q, hq, _, hg⟩ := hi
  rw [opened_cons] at hd
  refine ⟨Nat.le_trans (Nat.sub_le _ _) h.limit, ?_, q, hq, hg⟩
  show m.depth - 1 = opened frames
  omega

/-- The answer is given to the frame on top. -/
theorem inv_resume : Inv (resume s factorial { m with frames } x frame) := by
  have hi := h.control
  simp only [hc, hf] at hi
  obtain ⟨hd, q, hq, hs, hg⟩ := hi
  have hlimit := h.limit
  rw [opened_cons] at hd
  cases frame with
  | first tier => exact ⟨hlimit, by rw [hd]; exact Nat.zero_add _, q, hq, hs, hg⟩
  | right tier op l => exact inv_settle_below h hf fun y => ⟨hlimit, by rw [hd]; exact Nat.zero_add _, q, hq, hs, hg⟩
  | operand =>
    have hd' : m.depth = opened frames + 1 := by rw [hd]; exact Nat.add_comm _ _
    simp only [resume]
    split
    · rename_i c he
      split at he
      · have hlt := ((eat?_eq_some_iff rfl).mp he).position_lt
        exact inv_settle_below h hf fun y => ⟨hlimit, hd', q, Nat.lt_trans hq hlt, hs, hg⟩
      · cases he
    · exact ⟨hlimit, hd', q, hq, hs, hg⟩
  | product l => exact inv_settle_below h hf fun y => ⟨hlimit, by rw [hd]; exact Nat.add_comm _ _, q, hq, hs, hg⟩
  | sign negative => exact inv_leave_below h hc hf rfl _
  | base =>
    simp only [resume]
    split
    · rename_i c he
      have hlt := ((eat?_eq_some_iff rfl).mp he).position_lt
      have hdepth := hs.depth
      refine inv_push (show Supported (Frame.exponent x).level q frames from hs) hg (by omega) ?_ hlimit ?_
        (show Level.unary.reserve + 2 ≤ 5 * Level.unary.weight + Level.factor.reserve by decide)
      · rw [opened_cons, hd]
        rfl
      · simp only [opened_cons, Frame.level, Level.weight, Level.ahead] at hdepth ⊢
        omega
    · exact inv_leave_below h hc hf rfl x
  | exponent b => exact inv_settle_below h hf fun y => inv_leave_below h hc hf rfl y
  | parenthesis o =>
    simp only [resume]
    split
    · rename_i c he
      have hlt := ((eat?_eq_some_iff rfl).mp he).position_lt
      exact ⟨hlimit, by rw [hd]; exact Nat.zero_add _, q, Nat.lt_trans hq hlt, hg⟩
    · refine inv_fail_below h hf fun p he => ?_
      split at he
      · cases he
      · exact absurd (ExpressionError.grammar.inj he) (unexpected_ne _ p)
  | argument f => exact inv_settle_below h hf fun y => ⟨hlimit, by rw [hd]; exact Nat.zero_add _, q, hq, hg⟩

end Answer

theorem inv_goOn {m : State} {tier : Tier} {x : Binary64} (h : Inv m) (hc : m.control = .further tier x) :
    Inv (goOn m tier x) := by
  have hi := h.control
  simp only [hc] at hi
  obtain ⟨hd, q, hq, hs, hg⟩ := hi
  unfold goOn
  split
  · rename_i op c he
    have hlt := (eatOperator?_eq_some_iff.mp he).2.position_lt
    have hdepth := hs.depth
    refine inv_push (show Supported (Frame.right tier op x).level q m.frames from hs) hg (by omega) ?_ h.limit ?_ ?_
    · rw [hd]
      exact (Nat.zero_add _).symm
    · cases tier <;> simp only [operandLevel, opened_cons, Frame.level, Level.weight, Level.ahead] at hdepth ⊢ <;> omega
    · exact reserve_operand tier
  · exact ⟨h.limit, hd, q, hq, hg⟩

theorem inv_multiplyOn {m : State} {x : Binary64} (h : Inv m) (hc : m.control = .products x) : Inv (multiplyOn m x) := by
  have hi := h.control
  simp only [hc] at hi
  obtain ⟨hd, q, hq, hs, hg⟩ := hi
  have hdepth := hs.depth
  unfold multiplyOn
  split
  · refine inv_push (show Supported (Frame.product x).level q m.frames from hs) hg (Nat.le_of_lt hq) ?_ h.limit ?_
      (show Level.factor.reserve + 2 ≤ 5 * Level.factor.weight + Level.factor.reserve by decide)
    · rw [hd]
      exact Nat.add_comm _ _
    · simp only [opened_cons, Frame.level, Level.weight, Level.ahead] at hdepth ⊢
      omega
  · refine ⟨Nat.le_trans (Nat.sub_le _ _) h.limit, ?_, q, hq, hg⟩
    show m.depth - 1 = opened m.frames
    omega

theorem inv_step {m m' : State} (h : Inv m) (hs : step s factorial m = some m') : Inv m' := by
  unfold step at hs
  split at hs
  · cases hs
    exact inv_call h ‹_›
  · cases hs
    exact inv_goOn h ‹_›
  · cases hs
    exact inv_multiplyOn h ‹_›
  · split at hs
    · cases hs
    · cases hs
      exact inv_resume h ‹_› ‹_›
  · cases hs

/-! ## (5) Over a run -/

theorem inv_start (t : Text) : Inv (start t) := by
  cases he : (Cursor.start t).skipBlanks.rest.isEmpty with
  | true =>
    simp only [start, he, if_true]
    exact ⟨Nat.zero_le _, Nat.zero_le _, Nat.zero_le _, fun _ h => nomatch h⟩
  | false =>
    simp only [start, he, Bool.false_eq_true, if_false]
    exact ⟨Nat.zero_le _, rfl, ⟨Nat.zero_le _, Nat.le_refl 2⟩, trivial⟩

theorem inv_of_reaches {m m' : State} (hi : Inv m) (h : Reaches s factorial m m') : Inv m' := by
  induction h with
  | refl => exact hi
  | head hs _ ih => exact ih (inv_step hi hs)

/-- The counter is the number of open parts, when a part is called and when one answers. -/
theorem depth_of_answer {m m' : State} (hi : Inv m) (hi' : Inv m') {level : Level} {x : Binary64}
    (hc : m.control = .call level) (hc' : m'.control = .answer x) (hf : m'.frames = m.frames) :
    m'.depth = m.depth := by
  have h := hi.control
  have h' := hi'.control
  simp only [hc] at h
  simp only [hc'] at h'
  rw [h.1, h'.1, hf]

end CallStack

end Positional
