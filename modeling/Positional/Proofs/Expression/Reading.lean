/-
  Positional.Proofs.Expression.Reading — what is read is what the grammar derives.

  (1) A text that is derived with at most `m` factors and unaries open is read as the derived
      expression under any limit from `m` on; under a lower limit it may also break off, and
      then the first fault is that it is nested too deeply, and what is evaluated before that is
      evaluated as in the derived expression (`reads_or_breaks`).
  (2) What is read without a fault is derived (`follows_unary_factor`, `follows_expression`).

  So derivations and complete readings are the same (`read_iff`), and a text has at most one
  derivation.
-/
import Positional.Proofs.Expression.Derivation
import Positional.Proofs.Expression.Movement
import Positional.Proofs.Text.Classes

namespace Positional

open Cursor Expression

/-! ## (1) The readers of the parts -/

def Tier.operandReader (size : Nat) (factor : Reader) : Tier → Reader
  | sum => Expression.chain size multiplicative factor
  | term => factor

/-- The function that reads a part under a limit of `n`. -/
def Part.reader (factorial : Bool) (size n : Nat) : Part → Reader
  | chain tier => Expression.chain size tier.operators (tier.operandReader size (Expression.factor factorial size n))
  | further tier left =>
    extendWhile (link? tier.operators (tier.operandReader size (Expression.factor factorial size n))) size left
  | factor => Expression.factor factorial size n
  | products left => Expression.products size (Expression.factor factorial size n) left
  | unary => Expression.unary factorial size n
  | atom => Expression.atom size (Expression.factor factorial size n)

theorem Part.reader_operand (factorial : Bool) (size n : Nat) (tier : Tier) :
    tier.operand.reader factorial size n = tier.operandReader size (Expression.factor factorial size n) := by
  cases tier <;> rfl

/-- The operators that a chain does not leave behind. -/
def Tier.reserved : Tier → List Operator
  | sum => additive ++ multiplicative
  | term => multiplicative

/-- A chain of operands ends at `d`: no operator of it or of its operands follows. -/
def Part.Stops : Part → Cursor → Prop
  | chain tier, d | further tier _, d => ∀ op ∈ tier.reserved, ∀ e, ¬ Token op.symbol d e
  | _, _ => True

namespace Expression

variable {factorial : Bool} {size : Nat}

theorem moves_operandReader {f : Reader} (hf : Moves f) (size : Nat) (tier : Tier) :
    Moves (tier.operandReader size f) := by
  cases tier with
  | sum => exact moves_chain hf size multiplicative
  | term => exact hf

/-- Where a chain ends or goes on, its last operand ends. -/
theorem Derives.stops_operand {n : Nat} {tier : Tier} {left e : Expression} {c d : Cursor}
    (h : Derives factorial n (.further tier left) c e d) (hd : Part.Stops (.further tier left) d) :
    Part.Stops tier.operand c := by
  cases tier with
  | term => trivial
  | sum =>
    intro op hop d'
    cases h with
    | last => exact hd op (List.mem_append_right _ hop) d'
    | link hm ht _ _ =>
      intro ht'
      have apart : ∀ op ∈ additive, ∀ op' ∈ multiplicative, op.symbol ≠ op'.symbol := by decide
      exact apart _ hm op hop (ht.symbol_unique (isBlank_symbol _) (isBlank_symbol op) ht')

theorem stops_of_token {tier : Tier} {c d : Cursor} (h : Token ')' c d) : Part.Stops (.chain tier) c := by
  intro op _ d' ht
  have apart : ∀ op : Operator, op.symbol ≠ ')' := by intro op; cases op <;> decide
  exact apart op (ht.symbol_unique (isBlank_symbol op) rfl h)

theorem not_token_of_blank {c d : Cursor} {x : Char} (h : Blank c.rest) (hx : isBlank x = false) : ¬ Token x c d := by
  intro ⟨w, _, hs⟩
  have := h x (by rw [hs.1]; simp)
  rw [hx] at this
  cases this

/-! ## (2) Reading an atom -/

section Atoms

variable {f : Reader} {c d : Cursor}

/-- An atom is read by its first character that is not blank. -/
theorem atom_eq (hg : Gap c d) {x : Char} {t : Text} (hd : d.rest = x :: t) (hx : isBlank x = false) :
    atom size f c =
      if x == '(' then enclosed size f d.position (d.advance 1)
      else if isHexadecimal d.rest then readHexadecimal d
      else if x.isDigit || x == '.' then readDecimal d
      else if x == '√' then application f .squareRoot (d.advance 1)
      else if isAlphabetic x then named f d
      else breakOff d.unexpected d := by
  have hs : c.skipBlanks = d := by
    refine skipBlanks_eq hg fun y hy => ?_
    rw [Cursor.next?, hd] at hy
    cases hy
    exact hx
  simp only [atom, hs, hd]

theorem atom_parentheses (h : Token '(' c d) (size : Nat) (f : Reader) :
    ∃ opened, atom size f c = enclosed size f opened d := by
  obtain ⟨hn, rfl⟩ := (token_iff rfl).mp h
  obtain ⟨t, ht⟩ := List.head?_eq_some_iff.mp hn
  exact ⟨_, atom_eq (gap_skipBlanks c) ht rfl⟩

theorem isHexadecimal_of_ne {t : Text} {x : Char} (hx : x ≠ '0') : isHexadecimal (x :: t) = false := by
  unfold isHexadecimal
  split
  · rename_i h
    cases h
    exact absurd rfl hx
  · rfl

theorem atom_root (h : Token '√' c d) : atom size f c = application f .squareRoot d := by
  obtain ⟨hn, rfl⟩ := (token_iff rfl).mp h
  obtain ⟨t, ht⟩ := List.head?_eq_some_iff.mp hn
  rw [atom_eq (gap_skipBlanks c) ht rfl, ht, isHexadecimal_of_ne (by decide)]
  rfl

theorem atom_decimal (hg : Gap c d) (h : StartsDecimal d) : atom size f c = readDecimal d := by
  obtain ⟨⟨x, hn, hx⟩, hh⟩ := h
  obtain ⟨t, ht⟩ := List.head?_eq_some_iff.mp hn
  have hb : isBlank x = false := by
    rcases hx with hx | rfl
    · exact isBlank_of_isDigit hx
    · rfl
  have hp : (x == '(') = false := by
    rcases hx with hx | rfl
    · rw [beq_eq_false_iff_ne]
      rintro rfl
      cases hx
    · rfl
  rw [atom_eq hg ht hb, hh, hp]
  rcases hx with hx | rfl
  · simp [hx]
  · rfl

theorem atom_hexadecimal (hg : Gap c d) (h : isHexadecimal d.rest = true) : atom size f c = readHexadecimal d := by
  obtain ⟨marker, _, hs⟩ := spans_isHexadecimal h
  rw [atom_eq hg (x := '0') hs.1 rfl, h]
  rfl

theorem atom_named (hg : Gap c d) {x : Char} (hn : d.next? = some x) (hx : isAlphabetic x = true) :
    atom size f c = named f d := by
  obtain ⟨t, ht⟩ := List.head?_eq_some_iff.mp hn
  have other : ∀ y ∈ ['(', '√', '.', '0'], x ≠ y := by
    intro y hy e
    rw [e, isAlphabetic_symbols y (by simp at hy ⊢; grind)] at hx
    cases hx
  have hd : x.isDigit = false := by
    cases h : x.isDigit with
    | false => rfl
    | true => rw [isAlphabetic_of_isDigit h] at hx; cases hx
  rw [atom_eq hg ht (isBlank_of_startsFactor (startsFactor_of_isAlphabetic hx)), ht,
    isHexadecimal_of_ne (other '0' (by simp))]
  simp [other, hd, hx]

end Atoms

/-! ## (3) Derivations are read -/

/-- Reading broke off for its depth, before any other fault. -/
def TooDeep (e : Expression) : Prop := ∃ p, e.firstFault? = some (.nestedTooDeeply p)

theorem Starts.tooDeep {e e' : Expression} (h : Starts e e') (he : e.TooDeep) : e'.TooDeep := by
  obtain ⟨p, hp⟩ := he
  exact ⟨p, h.firstFault? hp⟩

theorem TooDeep.value_error {e : Expression} (h : e.TooDeep) (s : Setting) : ∃ error, e.value s = .error error := by
  cases hv : e.value s with
  | error error => exact ⟨error, rfl⟩
  | ok x =>
    obtain ⟨p, hp⟩ := h
    rw [isComplete_iff.mp (isComplete_of_value hv)] at hp
    cases hp

/-- Reading `e` broke off for its depth, with `r` read so far: evaluation reports the depth, or fails before
that as the evaluation of `e` does. -/
def BreaksOff (e r : Expression) : Prop :=
  r.TooDeep ∧ ∀ s, (∃ p, r.value s = .error (.grammar (.nestedTooDeeply p))) ∨ r.value s = e.value s

section BreaksOff

variable {e r : Expression}

theorem breaksOff_fault (e : Expression) (p : Nat) : BreaksOff e (.fault (.nestedTooDeeply p)) :=
  ⟨⟨p, rfl⟩, fun _ => Or.inl ⟨p, rfl⟩⟩

/-- What comes after the part that broke off is not evaluated. -/
theorem BreaksOff.starts {e' r' : Expression} (h : BreaksOff e r) (he : Starts e e') (hr : Starts r r') :
    BreaksOff e' r' := by
  refine ⟨hr.tooDeep h.1, fun s => ?_⟩
  rcases h.2 s with ⟨p, hp⟩ | hv
  · exact Or.inl ⟨p, hr.value_error hp⟩
  · obtain ⟨error, hx⟩ := h.1.value_error s
    exact Or.inr ((hr.value_error hx).trans (he.value_error (hv.symm.trans hx)).symm)

/-- A step of evaluation after `e`, and the same step after `r`. -/
theorem BreaksOff.bind {e' r' : Expression} (h : BreaksOff e r) (hd : r'.firstFault? = r.firstFault?)
    {f : Setting → Binary64 → Except ExpressionError Binary64} (he : ∀ s, e'.value s = e.value s >>= f s)
    (hr : ∀ s, r'.value s = r.value s >>= f s) : BreaksOff e' r' := by
  refine ⟨by rw [TooDeep, hd]; exact h.1, fun s => ?_⟩
  rcases h.2 s with ⟨p, hp⟩ | hv
  · exact Or.inl ⟨p, by rw [hr, hp]; rfl⟩
  · exact Or.inr (by rw [hr, he, hv])

theorem BreaksOff.negation (h : BreaksOff e r) : BreaksOff (.negation e) (.negation r) :=
  h.bind rfl (fun _ => rfl) fun _ => rfl

theorem BreaksOff.call (h : BreaksOff e r) (f : Function) : BreaksOff (.call f e) (.call f r) :=
  h.bind rfl (fun _ => rfl) fun _ => rfl

theorem BreaksOff.right (h : BreaksOff e r) (op : Operator) {left : Expression} (hl : left.isComplete = true) :
    BreaksOff (.binary op left e) (.binary op left r) := by
  obtain ⟨⟨p, hp⟩, h⟩ := h
  refine ⟨⟨p, by rw [Expression.firstFault?, isComplete_iff.mp hl, hp]; rfl⟩, fun s => ?_⟩
  cases hx : left.value s with
  | error error => exact Or.inr (by simp only [Expression.value, hx]; rfl)
  | ok x =>
    rcases h s with ⟨p, hp⟩ | hv
    · exact Or.inl ⟨p, by simp only [Expression.value, hx, hp]; rfl⟩
    · exact Or.inr (by simp only [Expression.value, hx, hv])

end BreaksOff

/-- The evaluation of what is derived begins with what stands to the left of it. -/
theorem Derives.starts {n : Nat} {part : Part} {c d : Cursor} {left e : Expression} (h : Derives factorial n part c e d)
    (hp : part = .products left ∨ ∃ tier, part = .further tier left) : Starts left e := by
  induction h generalizing left with
  | last | lastProduct =>
    rcases hp with hp | ⟨tier, hp⟩ <;> cases hp
    exact .refl
  | link _ _ _ _ _ ih =>
    rcases hp with hp | ⟨tier, hp⟩ <;> cases hp
    exact Starts.trans (.left _ _ .refl) (ih (Or.inr ⟨_, rfl⟩))
  | product _ _ _ _ _ ih =>
    rcases hp with hp | ⟨tier, hp⟩ <;> cases hp
    exact Starts.trans (.left _ _ .refl) (ih (Or.inl rfl))
  | _ => rcases hp with hp | ⟨tier, hp⟩ <;> cases hp

theorem Postfix.starts {e operand : Expression} {c d : Cursor} (h : Postfix factorial e c operand d) :
    Starts e operand := by
  cases h with
  | mark => exact .factorial .refl
  | none => exact .refl

theorem postfixed_eq {e operand : Expression} {c d : Cursor} (h : Postfix factorial e c operand d) :
    postfixed factorial e c = (operand, d) := by
  cases h with
  | mark hf ht => simp only [postfixed, hf, if_true, (eat?_eq_some_iff rfl).mpr ht]
  | none hn =>
    cases factorial with
    | false => rfl
    | true => simp only [postfixed, if_true, (eat?_eq_none_iff rfl).mpr (hn rfl)]

/-- Read as `e` with `d` left, or, under a limit below `m`, broken off for the depth. -/
def ReadsAs (n m : Nat) (r : Expression × Cursor) (e : Expression) (d : Cursor) : Prop :=
  r = (e, d) ∨ (n < m ∧ BreaksOff e r.1)

section ReadsAs

variable {n m : Nat} {f : Reader} {c c₁ c₂ d : Cursor} {e first left right operand base exponent : Expression}

theorem readsAs_zero : ReadsAs 0 (m + 1) (breakOff (.nestedTooDeeply c.position) c) e d :=
  Or.inr ⟨Nat.succ_pos m, breaksOff_fault e c.position⟩

theorem ReadsAs.succ {r : Expression × Cursor} (h : ReadsAs n m r e d) : ReadsAs (n + 1) (m + 1) r e d := by
  rcases h with h | ⟨hn, hb⟩
  · exact Or.inl h
  · exact Or.inr ⟨Nat.succ_lt_succ hn, hb⟩

theorem ReadsAs.chain {ops : List Operator} {o : Reader} (ho : ReadsAs n m (o c) first c₁) (he : Starts first e)
    (h : ReadsAs n m (extendWhile (link? ops o) size first c₁) e d) : ReadsAs n m (chain size ops o c) e d := by
  rcases ho with ho | ⟨hn, hb⟩
  · simpa only [Expression.chain, ho] using h
  · exact Or.inr ⟨hn, hb.starts he (starts_chain ops o c)⟩

/-- One round of a repetition, which adds an operand to `left`. -/
theorem ReadsAs.round {extend? : Expression → Cursor → Option (Expression × Cursor)} (hx : Shrinks extend?)
    (hst : ∀ {e c e' c'}, extend? e c = some (e', c') → Starts e e') {op : Operator} {r : Expression × Cursor}
    (hs : c.rest.length ≤ size) (hstep : extend? left c = some (.binary op left r.1, r.2))
    (hl : left.isComplete = true) (hr : ReadsAs n m r right c₁) (he : Starts (.binary op left right) e)
    (h : ReadsAs n m (extendWhile extend? size (.binary op left right) c₁) e d) :
    ReadsAs n m (extendWhile extend? size left c) e d := by
  rw [extendWhile_some hx hs hstep]
  rcases hr with hr | ⟨hn, hb⟩
  · rwa [hr]
  · exact Or.inr ⟨hn, (hb.right op hl).starts he (starts_extendWhile hst _ _ _)⟩

theorem ReadsAs.factor (hu : ReadsAs n m (unary factorial size n c) first c₁)
    (hp : Postfix factorial first c₁ operand c₂) (he : Starts operand e)
    (h : ReadsAs n m (products size (factor factorial size n) operand c₂) e d) :
    ReadsAs (n + 1) (m + 1) (factor factorial size (n + 1) c) e d := by
  simp only [Expression.factor]
  rcases hu with hu | ⟨hn, hb⟩
  · rw [hu, postfixed_eq hp]
    exact h.succ
  · exact Or.inr ⟨Nat.succ_lt_succ hn,
      hb.starts (hp.starts.trans he) ((starts_postfixed _ _ _).trans (starts_products _ _ _))⟩

theorem ReadsAs.plus (ht : Token '+' c c₁) (h : ReadsAs n m (unary factorial size n c₁) e d) :
    ReadsAs (n + 1) (m + 1) (unary factorial size (n + 1) c) e d := by
  simp only [Expression.unary, (eat?_eq_some_iff rfl).mpr ht]
  exact h.succ

theorem ReadsAs.minus (ht : Token '-' c c₁) (h : ReadsAs n m (unary factorial size n c₁) e d) :
    ReadsAs (n + 1) (m + 1) (unary factorial size (n + 1) c) (.negation e) d := by
  have hplus : c.eat? '+' = none :=
    (eat?_eq_none_iff rfl).mpr fun d ht' => absurd (ht.symbol_unique rfl rfl ht') (by decide)
  simp only [Expression.unary, hplus, (eat?_eq_some_iff rfl).mpr ht]
  rcases h with h | ⟨hn, hb⟩
  · rw [h]
    exact Or.inl rfl
  · exact Or.inr ⟨Nat.succ_lt_succ hn, hb.negation⟩

/-- A unary without a sign is an atom, and the `^` after it if there is one. -/
theorem unary_eq (h : Derives factorial m .atom c e d) (n : Nat) :
    unary factorial size (n + 1) c =
      let (base, c) := atom size (factor factorial size n) c
      match c.eat? '^' with
      | some c =>
        let (exponent, c) := factor factorial size n c
        (.binary .power base exponent, c)
      | none => (base, c) := by
  have hplus : c.eat? '+' = none := (eat?_eq_none_iff rfl).mpr fun d => h.not_token rfl (by decide)
  have hminus : c.eat? '-' = none := (eat?_eq_none_iff rfl).mpr fun d => h.not_token rfl (by decide)
  unfold Expression.unary
  generalize c.eat? '+' = plus at hplus ⊢
  generalize c.eat? '-' = minus at hminus ⊢
  subst hplus hminus
  rfl

theorem ReadsAs.plain (hd : Derives factorial m .atom c e c₁) (hc : ∀ d, ¬ Token '^' c₁ d)
    (h : ReadsAs n m (atom size (Expression.factor factorial size n) c) e c₁) :
    ReadsAs (n + 1) (m + 1) (unary factorial size (n + 1) c) e c₁ := by
  rw [unary_eq hd]
  rcases h with h | ⟨hn, hb⟩
  · simp only [h, (eat?_eq_none_iff rfl).mpr hc]
    exact Or.inl rfl
  · refine Or.inr ⟨Nat.succ_lt_succ hn, ?_⟩
    dsimp only
    split
    · exact hb.starts .refl (.left _ _ .refl)
    · exact hb

theorem ReadsAs.power (hd : Derives factorial m .atom c base c₁) (ht : Token '^' c₁ c₂)
    (hb : ReadsAs n m (atom size (Expression.factor factorial size n) c) base c₁)
    (h : ReadsAs n m (Expression.factor factorial size n c₂) exponent d) :
    ReadsAs (n + 1) (m + 1) (unary factorial size (n + 1) c) (.binary .power base exponent) d := by
  rw [unary_eq hd]
  rcases hb with hb | ⟨hn, hb⟩
  · simp only [hb, (eat?_eq_some_iff rfl).mpr ht]
    rcases h with h | ⟨hn, hx⟩
    · rw [h]
      exact Or.inl rfl
    · exact Or.inr ⟨Nat.succ_lt_succ hn, hx.right .power (hd.isComplete trivial)⟩
  · refine Or.inr ⟨Nat.succ_lt_succ hn, ?_⟩
    dsimp only
    split
    · exact hb.starts (.left _ _ .refl) (.left _ _ .refl)
    · exact hb.starts (.left _ _ .refl) .refl

theorem ReadsAs.enclosed {opened : Nat} (h : ReadsAs n m (expression size f c) e c₁) (ht : Token ')' c₁ d) :
    ReadsAs n m (enclosed size f opened c) e d := by
  rcases h with h | ⟨hn, hb⟩
  · simp only [Expression.enclosed, h, (eat?_eq_some_iff rfl).mpr ht]
    exact Or.inl rfl
  · exact Or.inr ⟨hn, hb.starts .refl (starts_enclosed _ _ _)⟩

theorem ReadsAs.application {g : Function} (h : ReadsAs n m (f c) e d) :
    ReadsAs n m (application f g c) (.call g e) d := by
  rcases h with h | ⟨hn, hb⟩
  · simp only [Expression.application, h]
    exact Or.inl rfl
  · exact Or.inr ⟨hn, hb.call g⟩

theorem readsAs_hexadecimal {marker : Char} {digits : Text} (hm : marker = 'x' ∨ marker = 'X')
    (hs : Spans c ['0', marker] c₁) (hr : Run Digit.isDigit c₁ digits d) (hlt : hexadecimalValue digits < twoPow 64) :
    isHexadecimal c.rest = true ∧ readHexadecimal c = (.number (.ofNat (hexadecimalValue digits)), d) := by
  have hne : digits.isEmpty = false := by
    rw [← Bool.not_eq_true, List.isEmpty_iff]
    exact hr.2.1
  refine ⟨?_, ?_⟩
  · rw [hs.1]
    rcases hm with rfl | rfl <;> rfl
  · rw [readHexadecimal, show c.advance 2 = c₁ from advance_eq hs, takeRun_eq hr]
    simp only [hne, Bool.false_eq_true, if_false, hlt, if_true]

end ReadsAs

/-- What is derived with `m` factors and unaries open is read, or is too deep for the limit. -/
theorem reads_or_breaks {m : Nat} {part : Part} {c d : Cursor} {e : Expression} (h : Derives factorial m part c e d)
    (hp : part.Sound) (hs : c.rest.length ≤ size) (hd : part.Stops d) (n : Nat) :
    ReadsAs n m (part.reader factorial size n c) e d := by
  induction h generalizing n with
  | @chain m tier first e c c₁ c₂ h₁ h₂ ih₁ ih₂ =>
    have ho := ih₁ (by cases tier <;> trivial) hs (h₂.stops_operand hd) n
    rw [Part.reader_operand] at ho
    exact ho.chain (h₂.starts (Or.inr ⟨tier, rfl⟩))
      (ih₂ (h₁.isComplete (by cases tier <;> trivial)) (Nat.le_trans h₁.ahead.length_le hs) hd n)
  | @last m tier left c =>
    refine Or.inl (extendWhile_none (link?_eq_none _ left fun op hop => hd op ?_) size)
    cases tier with
    | sum => exact List.mem_append_left _ hop
    | term => exact hop
  | @link m tier op left right e c c₁ c₂ c₃ hm ht h₁ h₂ ih₁ ih₂ =>
    have hr : right.isComplete = true := h₁.isComplete (by cases tier <;> trivial)
    have hc₁ : c₁.rest.length ≤ size := Nat.le_trans ht.ahead.length_le hs
    have ho := ih₁ (by cases tier <;> trivial) hc₁ (h₂.stops_operand hd) n
    rw [Part.reader_operand] at ho
    have hm' := moves_operandReader (moves_factor factorial size n) size tier
    refine ReadsAs.round (shrinks_link? hm' _) (fun h => starts_link? h) hs (link?_eq_some _ left hm ht) hp ho
      (h₂.starts (Or.inr ⟨tier, rfl⟩)) ?_
    exact ih₂ (by rw [Part.Sound, Expression.isComplete, hr, hp]; rfl) (Nat.le_trans h₁.ahead.length_le hc₁) hd n
  | @factor m first operand e c c₁ c₂ c₃ h₁ hpost h₂ ih₁ ih₂ =>
    have hu : first.isComplete = true := h₁.isComplete trivial
    cases n with
    | zero => exact readsAs_zero
    | succ n =>
      refine ReadsAs.factor (ih₁ trivial hs trivial n) hpost (h₂.starts (Or.inl rfl)) (ih₂ ?_ ?_ hd n)
      · cases hpost <;> exact hu
      · have ha := ahead_postfixed factorial first c₁
        rw [postfixed_eq hpost] at ha
        exact Nat.le_trans (h₁.ahead.trans ha).length_le hs
  | @lastProduct m left c hn => exact Or.inl (extendWhile_none (adjoin?_eq_none _ left hn) size)
  | @product m x left right e c c₁ c₂ hx hxs h₁ h₂ ih₁ ih₂ =>
    have hr : right.isComplete = true := h₁.isComplete trivial
    refine ReadsAs.round (shrinks_adjoin? (moves_factor factorial size n)) (fun h => starts_adjoin? h) hs
      (adjoin?_eq_some _ left hx hxs) hp (ih₁ trivial hs trivial n) (h₂.starts (Or.inl rfl)) ?_
    exact ih₂ (by rw [Part.Sound, Expression.isComplete, hr, hp]; rfl) (Nat.le_trans h₁.ahead.length_le hs) hd n
  | @plus m e c c₁ c₂ ht h₁ ih₁ =>
    cases n with
    | zero => exact readsAs_zero
    | succ n => exact ReadsAs.plus ht (ih₁ trivial (Nat.le_trans ht.ahead.length_le hs) trivial n)
  | @minus m e c c₁ c₂ ht h₁ ih₁ =>
    cases n with
    | zero => exact readsAs_zero
    | succ n => exact ReadsAs.minus ht (ih₁ trivial (Nat.le_trans ht.ahead.length_le hs) trivial n)
  | @plain m e c c₁ h₁ hcaret ih₁ =>
    cases n with
    | zero => exact readsAs_zero
    | succ n => exact ReadsAs.plain h₁ hcaret (ih₁ trivial hs trivial n)
  | @power m base exponent c c₁ c₂ c₃ h₁ ht h₂ ih₁ ih₂ =>
    have hc₂ : c₂.rest.length ≤ size := Nat.le_trans (h₁.ahead.trans ht.ahead).length_le hs
    cases n with
    | zero => exact readsAs_zero
    | succ n => exact ReadsAs.power h₁ ht (ih₁ trivial hs trivial n) (ih₂ trivial hc₂ trivial n)
  | @decimal m x c c₁ c₂ hg hstart hspan hx =>
    refine Or.inl ?_
    rw [Part.reader, atom_decimal hg hstart, readDecimal, hx, advance_eq hspan]
  | @hexadecimal m marker digits c c₁ c₂ c₃ hg hmarker hspan hr hlt =>
    obtain ⟨hh, he⟩ := readsAs_hexadecimal hmarker hspan hr hlt
    refine Or.inl ?_
    rw [Part.reader, atom_hexadecimal hg hh, he]
  | @parentheses m e c c₁ c₂ c₃ ht h₁ ht' ih₁ =>
    have hi := ih₁ trivial (Nat.le_trans ht.ahead.length_le hs) (stops_of_token ht') n
    obtain ⟨opened, hopen⟩ := atom_parentheses ht size (Expression.factor factorial size n)
    rw [Part.reader, hopen]
    exact ReadsAs.enclosed hi ht'
  | @constant m name k c c₁ c₂ hg hr hk =>
    obtain ⟨x, hx, hxa⟩ := hr.next
    refine Or.inl ?_
    rw [Part.reader, atom_named hg hx hxa, named, takeRun_eq hr]
    simp only [hk]
  | @function m name f argument c c₁ c₂ c₃ hg hr hk h₁ ih₁ =>
    obtain ⟨x, hx, hxa⟩ := hr.next
    rw [Part.reader, atom_named hg hx hxa, named, takeRun_eq hr]
    simp only [hk]
    exact (ih₁ trivial (Nat.le_trans (hg.ahead.trans hr.ahead).length_le hs) trivial n).application
  | @root m argument c c₁ c₂ ht h₁ ih₁ =>
    rw [Part.reader, atom_root ht]
    exact (ih₁ trivial (Nat.le_trans ht.ahead.length_le hs) trivial n).application

/-! ## (4) What is read is derived -/

/-- Whatever the reader completes is derived from the part. -/
def Follows (factorial : Bool) (size n : Nat) (part : Part) (r : Reader) : Prop :=
  ∀ c, c.rest.length ≤ size → (r c).1.isComplete = true → Derives factorial n part c (r c).1 (r c).2

section Follows

variable {n : Nat} {f : Reader}

theorem follows_further {tier : Tier} {o : Reader} (ho : Follows factorial size n tier.operand o) (hm : Moves o)
    (rounds : Nat) (left : Expression) :
    Follows factorial size n (.further tier left) (extendWhile (link? tier.operators o) rounds left) := by
  induction rounds generalizing left with
  | zero => exact fun c _ _ => .last
  | succ rounds ih =>
    intro c hc he
    cases hl : link? tier.operators o left c with
    | none =>
      rw [extendWhile_none hl]
      exact .last
    | some r =>
      obtain ⟨e', c'⟩ := r
      obtain ⟨op, hop, d, ht, rfl, rfl⟩ := exists_of_link? hl
      have hr : extendWhile (link? tier.operators o) (rounds + 1) left c =
          extendWhile (link? tier.operators o) rounds (.binary op left (o d).1) (o d).2 := by
        simp only [extendWhile, hl]
      rw [hr] at he ⊢
      have hd : d.rest.length ≤ size := Nat.le_trans ht.ahead.length_le hc
      have hb := (starts_extendWhile (fun h => starts_link? h) _ _ _).isComplete he
      have hright : (o d).1.isComplete = true := (Bool.and_eq_true_iff.mp hb).2
      exact .link hop ht (ho d hd hright) (ih _ _ (Nat.le_trans (hm d).1.length_le hd) he)

theorem follows_chain {tier : Tier} {o : Reader} (ho : Follows factorial size n tier.operand o) (hm : Moves o) :
    Follows factorial size n (.chain tier) (chain size tier.operators o) := by
  intro c hc he
  have hfirst := (starts_chain tier.operators o c).isComplete he
  exact .chain (ho c hc hfirst) (follows_further ho hm size _ _ (Nat.le_trans (hm c).1.length_le hc) he)

theorem follows_expression (hf : Follows factorial size n .factor f) (hm : Moves f) :
    Follows factorial size n (.chain .sum) (expression size f) := by
  have ht : Follows factorial size n (.chain .term) (chain size multiplicative f) := follows_chain hf hm
  exact follows_chain ht (moves_chain hm size multiplicative)

theorem follows_products (hf : Follows factorial size n .factor f) (hm : Moves f) (rounds : Nat) (left : Expression)
    (c : Cursor) (hc : c.rest.length ≤ size) (hr : c.rest.length ≤ rounds)
    (he : (extendWhile (adjoin? f) rounds left c).1.isComplete = true) :
    Derives factorial n (.products left) c (extendWhile (adjoin? f) rounds left c).1
      (extendWhile (adjoin? f) rounds left c).2 := by
  induction rounds generalizing left c with
  | zero =>
    refine .lastProduct fun x hx => ?_
    rw [Cursor.next?, List.eq_nil_of_length_eq_zero (Nat.le_zero.mp hr)] at hx
    cases hx
  | succ rounds ih =>
    cases ha : adjoin? f left c with
    | none =>
      rw [extendWhile_none ha]
      refine .lastProduct fun x hx => ?_
      cases hs : startsFactor x with
      | false => rfl
      | true => rw [adjoin?_eq_some f left hx hs] at ha; cases ha
    | some r =>
      obtain ⟨e', c'⟩ := r
      have hlt := (passes_adjoin? hm ha).2
      obtain ⟨⟨x, hx, hs⟩, rfl, rfl⟩ := exists_of_adjoin? ha
      have hround : extendWhile (adjoin? f) (rounds + 1) left c =
          extendWhile (adjoin? f) rounds (.binary .multiply left (f c).1) (f c).2 := by
        simp only [extendWhile, ha]
      rw [hround] at he ⊢
      have hb := (starts_extendWhile (fun h => starts_adjoin? h) _ _ _).isComplete he
      have hright : (f c).1.isComplete = true := (Bool.and_eq_true_iff.mp hb).2
      exact .product hx hs (hf c hc hright) (ih _ _ (by omega) (by omega) he)

theorem follows_enclosed (hf : Follows factorial size n .factor f) (hm : Moves f) {c d : Cursor} (ht : Token '(' c d)
    (hc : c.rest.length ≤ size) (opened : Nat) (he : (enclosed size f opened d).1.isComplete = true) :
    Derives factorial n .atom c (enclosed size f opened d).1 (enclosed size f opened d).2 := by
  have hi := follows_expression hf hm d (Nat.le_trans ht.ahead.length_le hc)
  simp only [enclosed] at he ⊢
  split at he
  · rename_i d' hd'
    exact .parentheses ht (hi he) ((eat?_eq_some_iff rfl).mp hd')
  · cases he

theorem follows_readDecimal {c d : Cursor} (hg : Gap c d) (hs : StartsDecimal d)
    (he : (readDecimal d).1.isComplete = true) : Derives factorial n .atom c (readDecimal d).1 (readDecimal d).2 := by
  simp only [readDecimal] at he ⊢
  split at he
  · rename_i x hx
    exact .decimal hg hs (spans_decimalLexeme d) hx
  · cases he

theorem follows_readHexadecimal {c d : Cursor} (hg : Gap c d) (hh : isHexadecimal d.rest = true)
    (he : (readHexadecimal d).1.isComplete = true) :
    Derives factorial n .atom c (readHexadecimal d).1 (readHexadecimal d).2 := by
  obtain ⟨marker, hm, hs⟩ := spans_isHexadecimal hh
  have hr := run_takeRun (p := Digit.isDigit) (c := d.advance 2)
  simp only [readHexadecimal] at he ⊢
  split at he
  · cases he
  · rename_i hne
    have hdigits : ((d.advance 2).takeRun Digit.isDigit).1 ≠ [] := fun h => hne (List.isEmpty_iff.mpr h)
    simp only [hne, Bool.false_eq_true, if_false]
    split at he
    · rename_i hlt
      simp only [hlt, if_true]
      exact .hexadecimal hg hm hs (hr hdigits) hlt
    · cases he

theorem follows_named (hf : Follows factorial size n .factor f) {c d : Cursor} (hg : Gap c d)
    (hc : c.rest.length ≤ size) (hr : (d.takeRun isAlphabetic).1 ≠ []) (he : (named f d).1.isComplete = true) :
    Derives factorial n .atom c (named f d).1 (named f d).2 := by
  have hrun := run_takeRun hr
  have hlen := Nat.le_trans (hg.ahead.trans hrun.ahead).length_le hc
  simp only [named] at he ⊢
  split at he
  · rename_i k hk
    exact .constant hg hrun hk
  · rename_i g hk
    exact .function hg hrun hk (hf _ hlen he)
  · cases he

theorem follows_atom (hf : Follows factorial size n .factor f) (hm : Moves f) :
    Follows factorial size n .atom (atom size f) := by
  intro c hc he
  have hg := gap_skipBlanks c
  cases hd : c.skipBlanks.rest with
  | nil =>
    simp only [atom, hd] at he
    cases he
  | cons x t =>
    have hn : c.skipBlanks.next? = some x := by rw [Cursor.next?, hd]; rfl
    have hx := next?_skipBlanks hn
    have ht {y : Char} (h : x = y) : Token y c (c.skipBlanks.advance 1) := by
      subst h
      exact (token_iff hx).mpr ⟨hn, rfl⟩
    have hc₁ : (c.skipBlanks.advance 1).rest.length ≤ size := Nat.le_trans (ht rfl).ahead.length_le hc
    rw [atom_eq hg hd hx] at he ⊢
    by_cases h₁ : x = '('
    · simp only [h₁, beq_self_eq_true, if_true] at he ⊢
      exact follows_enclosed hf hm (ht h₁) hc _ he
    rw [if_neg (by simpa using h₁)] at he ⊢
    by_cases h₂ : isHexadecimal c.skipBlanks.rest = true
    · rw [if_pos h₂] at he ⊢
      exact follows_readHexadecimal hg h₂ he
    rw [if_neg h₂] at he ⊢
    by_cases h₃ : (x.isDigit || x == '.') = true
    · rw [if_pos h₃] at he ⊢
      exact follows_readDecimal hg ⟨⟨x, hn, by simpa using h₃⟩, by simpa using h₂⟩ he
    rw [if_neg h₃] at he ⊢
    by_cases h₄ : x = '√'
    · simp only [h₄, beq_self_eq_true, if_true] at he ⊢
      exact .root (ht h₄) (hf _ hc₁ he)
    rw [if_neg (by simpa using h₄)] at he ⊢
    by_cases h₅ : isAlphabetic x = true
    · rw [if_pos h₅] at he ⊢
      refine follows_named hf hg hc ?_ he
      simp only [takeRun, hd, List.takeWhile_cons_of_pos h₅]
      exact List.cons_ne_nil _ _
    · rw [if_neg h₅] at he
      cases he

theorem postfix_postfixed (factorial : Bool) (e : Expression) (c : Cursor) :
    Postfix factorial e c (postfixed factorial e c).1 (postfixed factorial e c).2 := by
  cases factorial with
  | false => exact .none fun h => nomatch h
  | true =>
    simp only [postfixed, if_true]
    cases h : c.eat? '!' with
    | some d => exact .mark rfl ((eat?_eq_some_iff rfl).mp h)
    | none => exact .none fun _ => (eat?_eq_none_iff rfl).mp h

theorem follows_unary_factor (factorial : Bool) (size n : Nat) :
    Follows factorial size n .unary (unary factorial size n) ∧
      Follows factorial size n .factor (factor factorial size n) := by
  induction n with
  | zero => exact ⟨fun _ _ he => (nomatch he), fun _ _ he => (nomatch he)⟩
  | succ n ih =>
    obtain ⟨hu, hf⟩ := ih
    have hm := moves_factor factorial size n
    refine ⟨fun c hc he => ?_, fun c hc he => ?_⟩
    · simp only [unary] at he ⊢
      split at he
      · rename_i d hd
        have ht := (eat?_eq_some_iff rfl).mp hd
        exact .plus ht (hu d (Nat.le_trans ht.ahead.length_le hc) he)
      split at he
      · rename_i d hd
        have ht := (eat?_eq_some_iff rfl).mp hd
        exact .minus ht (hu d (Nat.le_trans ht.ahead.length_le hc) he)
      split at he
      · rename_i d hd
        have ht := (eat?_eq_some_iff rfl).mp hd
        have hb := Bool.and_eq_true_iff.mp he
        have ha := follows_atom hf hm c hc hb.1
        exact .power ha ht (hf d (Nat.le_trans (ha.ahead.trans ht.ahead).length_le hc) hb.2)
      · rename_i hcaret
        exact .plain (follows_atom hf hm c hc he) ((eat?_eq_none_iff rfl).mp hcaret)
    · simp only [factor] at he ⊢
      have hp := (starts_factor factorial size n c).isComplete he
      have hdu := hu c hc hp
      have hlen := Nat.le_trans (hdu.ahead.trans (ahead_postfixed factorial (unary factorial size n c).1 _)).length_le hc
      exact .factor hdu (postfix_postfixed factorial _ _) (follows_products hf hm size _ _ hlen hlen he)

end Follows

/-! ## (5) Whole texts -/

theorem length_skipBlanks_le (t : Text) : (Cursor.start t).skipBlanks.rest.length ≤ t.length :=
  (ahead_skipBlanks (Cursor.start t)).length_le

theorem stops_of_blank {tier : Tier} {d : Cursor} (h : Blank d.rest) : Part.Stops (.chain tier) d :=
  fun op _ _ => not_token_of_blank h (isBlank_symbol op)

/-- A text that the grammar derives with at most `m` factors and unaries open is read, or too deep. -/
theorem read_or_breaks {m : Nat} {t : Text} {e : Expression} {d : Cursor}
    (h : Derives factorial m (.chain .sum) (Cursor.start t) e d) (hd : Blank d.rest) :
    read factorial t = e ∨ (depthLimit < m ∧ BreaksOff e (read factorial t)) := by
  have hne : (Cursor.start t).skipBlanks.rest.isEmpty = false := by
    rw [← Bool.not_eq_true, List.isEmpty_iff, ← blank_iff]
    exact h.not_blank trivial
  have hr := reads_or_breaks (h.skipBlanks trivial) trivial (length_skipBlanks_le t) (stops_of_blank hd) depthLimit
  have hx : Part.reader factorial t.length depthLimit (.chain .sum) =
      expression t.length (factor factorial t.length depthLimit) := rfl
  rw [hx] at hr
  simp only [read, hne, Bool.false_eq_true, if_false]
  rcases hr with hr | ⟨hn, hb⟩
  · left
    simp only [hr, blank_iff.mp hd, List.isEmpty_nil, if_true]
  · refine Or.inr ⟨hn, ?_⟩
    split
    · exact hb
    · exact hb.starts .refl (.faultAfter _ .refl)

/-- The texts that are read without a fault are those with a derivation, and they are read as
what is derived. -/
theorem read_iff {t : Text} {e : Expression} :
    Derivation factorial t e ↔ read factorial t = e ∧ e.isComplete = true := by
  constructor
  · intro ⟨d, h, hd⟩
    refine ⟨?_, h.isComplete trivial⟩
    rcases read_or_breaks h hd with hr | ⟨hn, _⟩
    · exact hr
    · exact absurd hn (Nat.lt_irrefl _)
  · intro ⟨hr, he⟩
    subst hr
    have hf := (follows_unary_factor factorial t.length depthLimit).2
    have hx := follows_expression hf (moves_factor _ _ _) _ (length_skipBlanks_le t)
    simp only [read] at he ⊢
    split at he
    · cases he
    rename_i hne
    simp only [hne, Bool.false_eq_true, if_false]
    split at he
    · rename_i hb
      simp only [hb, if_true]
      refine ⟨_, (hx he).after_gap trivial (gap_skipBlanks _), ?_⟩
      exact blank_iff.mpr (List.isEmpty_iff.mp hb)
    · cases he

end Expression

end Positional
