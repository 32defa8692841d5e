/-
  Positional.Proofs.Expression.Derivation — the grammar of expressions as rules.

      expression := term (('+' | '-') term)*
      term       := factor (('*' | '/' | '%') factor)*
      factor     := unary '!'? factor*
      unary      := ('+' | '-') unary | atom ('^' factor)?
      atom       := number | hexadecimal | '(' expression ')' | constant | function factor

  `Derives factorial n part c e d`: the text from `c` to `d` is derived from `part`, with at most
  `n` factors and unaries open at once, and it spells `e`. Nothing here reads; the rules only
  say which texts are derived.

  - Blanks may stand before a symbol, a number and a name. The factors at the end of a factor
    have to start with the very next character (`product`).
  - A number, the digits after `0x` and a name extend as far as they can.
  - A `!`, a `^` and an adjacent factor belong to the innermost part that can take them: a
    factor that takes no `!` has none after it, an atom without exponent has no `^` after it,
    and what follows the last adjacent factor does not start a factor. Sums and products
    need no such condition.

  What is derived lies ahead (`Derives.ahead`) and has no fault (`Derives.isComplete`). Blanks at
  the front make no difference (`Derives.after_gap`, `Derives.skipBlanks`).
-/
import Positional.Expression.Grammar
import Positional.Proofs.Expression.Cursor
import Positional.Proofs.Text.Classes

namespace Positional

open Cursor

/-- The two levels of operators that group from the left. -/
inductive Tier where
  | sum
  | term
  deriving DecidableEq, Repr

def Tier.operators : Tier → List Operator
  | sum => Expression.additive
  | term => Expression.multiplicative

/-- The parts of the grammar. `further` and `products` are what may come after `left`. -/
inductive Part where
  | chain (tier : Tier)
  | further (tier : Tier) (left : Expression)
  | factor
  | products (left : Expression)
  | unary
  | atom
  deriving DecidableEq

def Tier.operand : Tier → Part
  | sum => .chain .term
  | term => .factor

/-- What stands to the left of a continuation has been read without a fault. -/
def Part.Sound : Part → Prop
  | further _ left | products left => left.isComplete = true
  | _ => True

/-- Parts whose text begins with a token of their own. -/
def Part.Leads : Part → Prop
  | further _ _ | products _ => False
  | _ => True

namespace Expression

/-! ## (1) The rules -/

/-- The `!` after an operand: taken wherever there is one, in a language that has it. -/
inductive Postfix (factorial : Bool) (e : Expression) (c : Cursor) : Expression → Cursor → Prop
  | mark {d : Cursor} : factorial = true → Token '!' c d → Postfix factorial e c (.factorial e) d
  | none : (factorial = true → ∀ d, ¬ Token '!' c d) → Postfix factorial e c e c

/-- A decimal literal starts at `c`: a digit or a point, and not `0x`. -/
def StartsDecimal (c : Cursor) : Prop :=
  (∃ x, c.next? = some x ∧ (x.isDigit = true ∨ x = '.')) ∧ isHexadecimal c.rest = false

inductive Derives (factorial : Bool) : Nat → Part → Cursor → Expression → Cursor → Prop
  | chain {n : Nat} {tier : Tier} {first e : Expression} {c c₁ c₂ : Cursor} :
      Derives factorial n tier.operand c first c₁ → Derives factorial n (.further tier first) c₁ e c₂ →
      Derives factorial n (.chain tier) c e c₂
  | last {n : Nat} {tier : Tier} {left : Expression} {c : Cursor} : Derives factorial n (.further tier left) c left c
  | link {n : Nat} {tier : Tier} {op : Operator} {left right e : Expression} {c c₁ c₂ c₃ : Cursor} :
      op ∈ tier.operators → Token op.symbol c c₁ → Derives factorial n tier.operand c₁ right c₂ →
      Derives factorial n (.further tier (.binary op left right)) c₂ e c₃ →
      Derives factorial n (.further tier left) c e c₃
  | factor {n : Nat} {first operand e : Expression} {c c₁ c₂ c₃ : Cursor} :
      Derives factorial n .unary c first c₁ → Postfix factorial first c₁ operand c₂ →
      Derives factorial n (.products operand) c₂ e c₃ → Derives factorial (n + 1) .factor c e c₃
  | lastProduct {n : Nat} {left : Expression} {c : Cursor} :
      (∀ x, c.next? = some x → startsFactor x = false) → Derives factorial n (.products left) c left c
  | product {n : Nat} {x : Char} {left right e : Expression} {c c₁ c₂ : Cursor} :
      c.next? = some x → startsFactor x = true → Derives factorial n .factor c right c₁ →
      Derives factorial n (.products (.binary .multiply left right)) c₁ e c₂ →
      Derives factorial n (.products left) c e c₂
  | plus {n : Nat} {e : Expression} {c c₁ c₂ : Cursor} :
      Token '+' c c₁ → Derives factorial n .unary c₁ e c₂ → Derives factorial (n + 1) .unary c e c₂
  | minus {n : Nat} {e : Expression} {c c₁ c₂ : Cursor} :
      Token '-' c c₁ → Derives factorial n .unary c₁ e c₂ → Derives factorial (n + 1) .unary c (.negation e) c₂
  | plain {n : Nat} {e : Expression} {c c₁ : Cursor} :
      Derives factorial n .atom c e c₁ → (∀ d, ¬ Token '^' c₁ d) → Derives factorial (n + 1) .unary c e c₁
  | power {n : Nat} {base exponent : Expression} {c c₁ c₂ c₃ : Cursor} :
      Derives factorial n .atom c base c₁ → Token '^' c₁ c₂ → Derives factorial n .factor c₂ exponent c₃ →
      Derives factorial (n + 1) .unary c (.binary .power base exponent) c₃
  | decimal {n : Nat} {x : Binary64} {c c₁ c₂ : Cursor} :
      Gap c c₁ → StartsDecimal c₁ → Spans c₁ (decimalLexeme c₁.rest) c₂ →
      Binary64.ofText? (decimalLexeme c₁.rest) = some x → Derives factorial n .atom c (.number x) c₂
  | hexadecimal {n : Nat} {marker : Char} {digits : Text} {c c₁ c₂ c₃ : Cursor} :
      Gap c c₁ → marker = 'x' ∨ marker = 'X' → Spans c₁ ['0', marker] c₂ → Run Digit.isDigit c₂ digits c₃ →
      hexadecimalValue digits < twoPow 64 →
      Derives factorial n .atom c (.number (.ofNat (hexadecimalValue digits))) c₃
  | parentheses {n : Nat} {e : Expression} {c c₁ c₂ c₃ : Cursor} :
      Token '(' c c₁ → Derives factorial n (.chain .sum) c₁ e c₂ → Token ')' c₂ c₃ → Derives factorial n .atom c e c₃
  | constant {n : Nat} {name : Text} {k : Constant} {c c₁ c₂ : Cursor} :
      Gap c c₁ → Run isAlphabetic c₁ name c₂ → Identifier.ofText? name = some (.constant k) →
      Derives factorial n .atom c (.constant k c₁.position) c₂
  | function {n : Nat} {name : Text} {f : Function} {argument : Expression} {c c₁ c₂ c₃ : Cursor} :
      Gap c c₁ → Run isAlphabetic c₁ name c₂ → Identifier.ofText? name = some (.function f) →
      Derives factorial n .factor c₂ argument c₃ → Derives factorial n .atom c (.call f argument) c₃
  | root {n : Nat} {argument : Expression} {c c₁ c₂ : Cursor} :
      Token '√' c c₁ → Derives factorial n .factor c₁ argument c₂ →
      Derives factorial n .atom c (.call .squareRoot argument) c₂

/-- The whole text is an expression, but for blanks at its end. -/
def Derivation (factorial : Bool) (t : Text) (e : Expression) : Prop :=
  ∃ d, Derives factorial depthLimit (.chain .sum) (Cursor.start t) e d ∧ Blank d.rest

/-! ## (2) What is derived -/

variable {factorial : Bool}

theorem Derives.ahead {n : Nat} {part : Part} {c d : Cursor} {e : Expression} (h : Derives factorial n part c e d) :
    Ahead c d := by
  induction h with
  | chain _ _ ih ih' => exact ih.trans ih'
  | last | lastProduct => exact Ahead.refl _
  | link _ ht _ _ ih ih' => exact ht.ahead.trans (ih.trans ih')
  | factor _ hp _ ih ih' =>
    refine ih.trans (Ahead.trans ?_ ih')
    cases hp with
    | mark _ ht => exact ht.ahead
    | none => exact Ahead.refl _
  | product _ _ _ _ ih ih' => exact ih.trans ih'
  | plus ht _ ih | minus ht _ ih => exact ht.ahead.trans ih
  | plain _ _ ih => exact ih
  | power _ ht _ ih ih' => exact ih.trans (ht.ahead.trans ih')
  | decimal hg _ hs _ => exact hg.ahead.trans ⟨_, hs⟩
  | hexadecimal hg _ hs hr _ => exact hg.ahead.trans (Ahead.trans ⟨_, hs⟩ hr.ahead)
  | parentheses ht _ ht' ih => exact ht.ahead.trans (ih.trans ht'.ahead)
  | constant hg hr _ => exact hg.ahead.trans hr.ahead
  | function hg hr _ _ ih => exact hg.ahead.trans (hr.ahead.trans ih)
  | root ht _ ih => exact ht.ahead.trans ih

/-- A derived expression has no fault. -/
theorem Derives.isComplete {n : Nat} {part : Part} {c d : Cursor} {e : Expression}
    (h : Derives factorial n part c e d) (hp : part.Sound) : e.isComplete = true := by
  induction h with
  | @chain n tier first e c c₁ c₂ _ _ ih ih' => exact ih' (ih (by cases tier <;> trivial))
  | last | lastProduct => exact hp
  | @link n tier op left right e c c₁ c₂ c₃ _ _ _ _ ih ih' =>
    have hr : right.isComplete = true := ih (by cases tier <;> trivial)
    have hl : left.isComplete = true := hp
    refine ih' ?_
    show (left.isComplete && right.isComplete) = true
    rw [hl, hr]
    rfl
  | factor _ hpost _ ih ih' =>
    have hu := ih trivial
    cases hpost with
    | mark => exact ih' hu
    | none => exact ih' hu
  | @product n x left right e c c₁ c₂ _ _ _ _ ih ih' =>
    have hr : right.isComplete = true := ih trivial
    have hl : left.isComplete = true := hp
    refine ih' ?_
    show (left.isComplete && right.isComplete) = true
    rw [hl, hr]
    rfl
  | plus _ _ ih | minus _ _ ih | function _ _ _ _ ih | root _ _ ih => exact ih trivial
  | plain _ _ ih => exact ih trivial
  | power _ _ _ ih ih' =>
    rw [Expression.isComplete, ih trivial, ih' trivial]
    rfl
  | decimal | hexadecimal | constant => rfl
  | parentheses _ _ _ ih => exact ih trivial

theorem Part.leads_operand (tier : Tier) : tier.operand.Leads := by cases tier <;> trivial

/-- After blanks there is a character, and for an atom it starts a factor. -/
theorem Derives.start {n : Nat} {part : Part} {c d : Cursor} {e : Expression} (h : Derives factorial n part c e d)
    (hp : part.Leads) : ∃ x, c.skipBlanks.next? = some x ∧ (part = .atom → startsFactor x = true) := by
  have after {c c₁ : Cursor} {x : Char} {part : Part} (hg : Gap c c₁) (hn : c₁.next? = some x)
      (hx : startsFactor x = true) : ∃ x, c.skipBlanks.next? = some x ∧ (part = .atom → startsFactor x = true) := by
    have hs : c.skipBlanks = c₁ := by
      refine skipBlanks_eq hg fun y hy => ?_
      cases hn.symm.trans hy
      exact isBlank_of_startsFactor hx
    exact ⟨x, by rw [hs]; exact hn, fun _ => hx⟩
  induction h with
  | chain _ _ ih =>
    obtain ⟨x, hn, _⟩ := ih (Part.leads_operand _)
    exact ⟨x, hn, fun h => (nomatch h)⟩
  | factor _ _ _ ih | plain _ _ ih | power _ _ _ ih =>
    obtain ⟨x, hn, _⟩ := ih trivial
    exact ⟨x, hn, fun h => (nomatch h)⟩
  | plus ht _ | minus ht _ => exact ⟨_, ((token_iff rfl).mp ht).1, fun h => (nomatch h)⟩
  | decimal hg hd _ _ =>
    obtain ⟨⟨x, hn, hx⟩, _⟩ := hd
    refine after hg hn ?_
    rcases hx with hx | rfl
    · simp [startsFactor, hx]
    · rfl
  | hexadecimal hg _ hs _ _ => exact after hg (x := '0') (by rw [Cursor.next?, hs.1]; rfl) rfl
  | constant hg hr _ | function hg hr _ _ =>
    obtain ⟨x, hn, hx⟩ := hr.next
    exact after hg hn (startsFactor_of_isAlphabetic hx)
  | parentheses ht _ _ => exact ⟨'(', ((token_iff rfl).mp ht).1, fun _ => rfl⟩
  | root ht _ => exact ⟨'√', ((token_iff rfl).mp ht).1, fun _ => rfl⟩
  | last | link | lastProduct | product => exact hp.elim

theorem Derives.not_token {n : Nat} {c d d' : Cursor} {e : Expression} {x : Char}
    (h : Derives factorial n .atom c e d) (hx : isBlank x = false) (hs : startsFactor x = false) : ¬ Token x c d' := by
  intro ht
  obtain ⟨y, hy, hys⟩ := h.start trivial
  cases hy.symm.trans ((token_iff hx).mp ht).1
  rw [hs] at hys
  exact nomatch hys rfl

/-- A unary with nothing behind it that a factor could take is a whole sum. -/
theorem Derives.alone {n : Nat} {c d : Cursor} {e : Expression} (h : Derives factorial n .unary c e d)
    (hmark : ∀ d', ¬ Token '!' d d') (hnext : ∀ x, d.next? = some x → startsFactor x = false) :
    Derives factorial (n + 1) (.chain .sum) c e d := by
  have hfactor := Derives.factor h (.none fun _ => hmark) (.lastProduct hnext)
  have hterm : Derives factorial (n + 1) (.chain .term) c e d := .chain hfactor .last
  exact .chain hterm .last

/-! ## (3) Blanks at the front -/

/-- Blanks may be put before a part. -/
theorem Derives.after_gap {n : Nat} {part : Part} {b c d : Cursor} {e : Expression} (h : Derives factorial n part c e d)
    (hp : part.Leads) (hb : Gap b c) : Derives factorial n part b e d := by
  induction h with
  | chain _ h₂ ih => exact .chain (ih (Part.leads_operand _) hb) h₂
  | factor _ hpost h₂ ih => exact .factor (ih trivial hb) hpost h₂
  | plus ht h₁ => exact .plus (hb.token ht) h₁
  | minus ht h₁ => exact .minus (hb.token ht) h₁
  | plain _ hc ih => exact .plain (ih trivial hb) hc
  | power _ ht h₂ ih => exact .power (ih trivial hb) ht h₂
  | decimal hg hs hspan hx => exact .decimal (hb.trans hg) hs hspan hx
  | hexadecimal hg hm hs hr hlt => exact .hexadecimal (hb.trans hg) hm hs hr hlt
  | parentheses ht h₁ ht' => exact .parentheses (hb.token ht) h₁ ht'
  | constant hg hr hk => exact .constant (hb.trans hg) hr hk
  | function hg hr hk h₁ => exact .function (hb.trans hg) hr hk h₁
  | root ht h₁ => exact .root (hb.token ht) h₁
  | last | link | lastProduct | product => exact hp.elim

/-- The blanks before a part may be left out. -/
theorem Derives.skipBlanks {n : Nat} {part : Part} {c d : Cursor} {e : Expression} (h : Derives factorial n part c e d)
    (hp : part.Leads) : Derives factorial n part c.skipBlanks e d := by
  have starts {c c₁ : Cursor} {x : Char} (hg : Gap c c₁) (hn : c₁.next? = some x) (hx : isBlank x = false) :
      c.skipBlanks = c₁ := by
    refine skipBlanks_eq hg fun y hy => ?_
    cases hn.symm.trans hy
    exact hx
  have named {c c₁ c₂ : Cursor} {name : Text} (hg : Gap c c₁) (hr : Run isAlphabetic c₁ name c₂) :
      c.skipBlanks = c₁ := by
    obtain ⟨x, hn, hx⟩ := hr.next
    exact starts hg hn (isBlank_of_startsFactor (startsFactor_of_isAlphabetic hx))
  induction h with
  | chain _ h₂ ih => exact .chain (ih (Part.leads_operand _)) h₂
  | factor _ hpost h₂ ih => exact .factor (ih trivial) hpost h₂
  | plus ht h₁ => exact .plus (ht.skipBlanks rfl) h₁
  | minus ht h₁ => exact .minus (ht.skipBlanks rfl) h₁
  | plain _ hc ih => exact .plain (ih trivial) hc
  | power _ ht h₂ ih => exact .power (ih trivial) ht h₂
  | decimal hg hs hspan hx =>
    obtain ⟨⟨x, hn, hd⟩, hh⟩ := hs
    have hb : isBlank x = false := by
      rcases hd with hd | rfl
      · exact isBlank_of_isDigit hd
      · rfl
    rw [starts hg hn hb]
    exact .decimal (Gap.refl _) ⟨⟨x, hn, hd⟩, hh⟩ hspan hx
  | hexadecimal hg hm hs hr hlt =>
    rw [starts hg (x := '0') (by rw [Cursor.next?, hs.1]; rfl) rfl]
    exact .hexadecimal (Gap.refl _) hm hs hr hlt
  | parentheses ht h₁ ht' => exact .parentheses (ht.skipBlanks rfl) h₁ ht'
  | constant hg hr hk =>
    rw [named hg hr]
    exact .constant (Gap.refl _) hr hk
  | function hg hr hk h₁ =>
    rw [named hg hr]
    exact .function (Gap.refl _) hr hk h₁
  | root ht h₁ => exact .root (ht.skipBlanks rfl) h₁
  | last | link | lastProduct | product => exact hp.elim

/-- There is no part in blanks alone. -/
theorem Derives.not_blank {n : Nat} {part : Part} {c d : Cursor} {e : Expression} (h : Derives factorial n part c e d)
    (hp : part.Leads) : ¬ Blank c.rest := by
  intro hb
  obtain ⟨x, hn, _⟩ := h.start hp
  rw [Cursor.next?, blank_iff.mp hb] at hn
  cases hn

end Expression

end Positional
