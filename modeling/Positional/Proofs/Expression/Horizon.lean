/-
  Positional.Proofs.Expression.Horizon — how far reading looks.

  Two texts that agree up to a character, this one included, are a `Fork`. The machine runs alike on both
  while its cursors are in front of this character (`inStep_step`), up to the first step that moves over it. From
  then on no character up to there is refused any more (`beyond_step`). So if this very
  character is refused in one of the texts, it is refused in the other (`InStep.result?_eq`).

  A decimal literal is the only thing for which reading looks ahead of what it takes, beyond an `e` and a sign.
  It would look past the character only if that could go on with the literal, and then it is not refused
  (`decimalLexeme_fork`, `Blamed`).
-/
import Positional.Proofs.Expression.Draws
import Positional.Proofs.Expression.Places
import Positional.Proofs.Expression.Respelling

namespace Positional

open Cursor Expression

/-- Two texts that agree up to a character. -/
structure Fork where
  before : Text
  symbol : Char
  after : Text
  after' : Text

namespace Fork

def text (k : Fork) : Text := k.before ++ k.symbol :: k.after

def text' (k : Fork) : Text := k.before ++ k.symbol :: k.after'

/-- The place of the last character on which the texts agree. -/
def place (k : Fork) : Nat := k.before.length

end Fork

/-! ## (1) Runs in front of the fork -/

section Runs

variable {x : Char} {r r' : Text}

theorem takeWhile_fork (p : Char → Bool) (w : Text) (h : ((w ++ x :: r).takeWhile p).length ≤ w.length) :
    (w ++ x :: r').takeWhile p = (w ++ x :: r).takeWhile p := by
  induction w with
  | nil =>
    cases hx : p x with
    | true => simp [hx] at h
    | false => simp [hx]
  | cons y w ih =>
    rw [List.cons_append] at h ⊢
    cases hy : p y with
    | true =>
      rw [List.takeWhile_cons_of_pos hy, List.length_cons, List.length_cons] at h
      rw [List.cons_append, List.takeWhile_cons_of_pos hy, List.takeWhile_cons_of_pos hy, ih (Nat.le_of_succ_le_succ h)]
    | false => simp [hy]

theorem isHexadecimal_cons_cons (a b : Char) (t : Text) :
    isHexadecimal (a :: b :: t) = (a == '0' && (b == 'x' || b == 'X')) := by
  unfold isHexadecimal
  split
  · rename_i h
    cases h
    rfl
  · rename_i h
    have ha : a ≠ '0' := fun ha => h b t (by rw [ha])
    rw [beq_eq_false_iff_ne.mpr ha, Bool.false_and]

theorem isHexadecimal_fork {w : Text} (hw : w ≠ []) : isHexadecimal (w ++ x :: r') = isHexadecimal (w ++ x :: r) := by
  match w, hw with
  | [a], _ => exact (isHexadecimal_cons_cons a x r').trans (isHexadecimal_cons_cons a x r).symm
  | a :: b :: w, _ =>
    exact (isHexadecimal_cons_cons a b (w ++ x :: r')).trans (isHexadecimal_cons_cons a b (w ++ x :: r)).symm

theorem startsWithDigit_fork (w : Text) : startsWithDigit (w ++ x :: r') = startsWithDigit (w ++ x :: r) := by
  cases w <;> rfl

theorem startsLexeme_fork (y : Char) (w : Text) :
    startsLexeme (y :: (w ++ x :: r')) = startsLexeme (y :: (w ++ x :: r)) := by
  have hdigit : startsWithDigit (w ++ x :: r') = startsWithDigit (w ++ x :: r) := startsWithDigit_fork w
  simp only [startsLexeme, startsWith, hdigit]

/-- Characters of literals are neither blanks nor markers of hexadecimal ones. -/
theorem not_separates_of_startsLexeme {y : Char} {t : Text} (h : startsLexeme (y :: t) = true) : ¬ Separates y := by
  rintro (hb | rfl | rfl)
  · rw [startsLexeme_solid h] at hb
    cases hb
  · cases h
  · cases h

theorem not_separates_of_marker {y : Char} (h : isExponentMarker y = true) : ¬ Separates y := by
  rw [isExponentMarker, Bool.or_eq_true, beq_iff_eq, beq_iff_eq] at h
  rcases h with rfl | rfl <;> exact fun hs => absurd hs (by unfold Separates; decide)

theorem not_separates_of_sign {y : Char} (h : (y == '+' || y == '-') = true) : ¬ Separates y := by
  rw [Bool.or_eq_true, beq_iff_eq, beq_iff_eq] at h
  rcases h with rfl | rfl <;> exact fun hs => absurd hs (by unfold Separates; decide)

theorem goesOn_of_marker {y : Char} (h : isExponentMarker y = true) : goesOn y = true := by
  simp [goesOn, isExponentMarker_startsFactor h]

/-- No literal begins at a character that does not go on with anything. -/
theorem decimalLexeme_of_not_goesOn (hx : goesOn x = false) : decimalLexeme (x :: r) = [] := by
  have hmarker : isExponentMarker x = false := by
    rw [← Bool.not_eq_true]
    intro h
    rw [goesOn_of_marker h] at hx
    cases hx
  refine decimalLexeme_nil ?_ ?_
  · simp only [goesOn, startsFactor, Bool.or_eq_false_iff] at hx
    simp [startsLexeme, startsWith, hx, hmarker]
  · simp [startsSignedExponent, startsWith, hmarker]

theorem Settled.tail {y : Char} {w : Text} (h : Settled (y :: w) x) (hy : ¬ Separates y) : Settled w x := by
  intro hgoes
  obtain ⟨z, hz, hseparates⟩ := h hgoes
  cases w with
  | nil =>
    obtain rfl : y = z := Option.some.inj hz
    exact absurd hseparates hy
  | cons y' w => exact ⟨z, by rwa [List.getLast?_cons_cons] at hz, hseparates⟩

theorem Settled.of_append {v w : Text} (h : Settled (v ++ w) x) (hw : w ≠ []) : Settled w x := by
  intro hgoes
  obtain ⟨y, hy, hseparates⟩ := h hgoes
  exact ⟨y, by rwa [List.getLast?_append_of_ne_nil _ hw] at hy, hseparates⟩

/-- No sign of an exponent is at the fork. -/
theorem Settled.not_exponent {y : Char} (h : Settled [y] x) : startsSignedExponent (y :: x :: r) = false := by
  rw [← Bool.not_eq_true]
  intro hexponent
  obtain ⟨hy, hx⟩ := (Bool.and_eq_true _ _).mp hexponent
  have hsign : (x == '+' || x == '-') = true := ((Bool.and_eq_true _ _).mp hx).1
  have hgoes : goesOn x = true := by rw [goesOn, Bool.or_assoc, hsign, Bool.or_true]
  obtain ⟨z, hz, hseparates⟩ := h hgoes
  obtain rfl : y = z := Option.some.inj hz
  exact not_separates_of_marker hy hseparates

/-- The sign of an exponent is in front of the fork if its marker is. -/
theorem startsSignedExponent_fork {y : Char} {w : Text} (h : Settled (y :: w) x) :
    startsSignedExponent (y :: (w ++ x :: r')) = startsSignedExponent (y :: (w ++ x :: r)) := by
  cases w with
  | cons z w =>
    have hdigit : startsWithDigit (w ++ x :: r') = startsWithDigit (w ++ x :: r) := startsWithDigit_fork w
    simp only [List.cons_append, startsSignedExponent, startsWith, hdigit]
  | nil => exact (Settled.not_exponent h).trans (Settled.not_exponent h).symm

/-- A literal in front of the fork does not depend on what is behind it. -/
theorem decimalLexeme_fork {w : Text} (hsettled : Settled w x) (h : (decimalLexeme (w ++ x :: r)).length ≤ w.length) :
    decimalLexeme (w ++ x :: r') = decimalLexeme (w ++ x :: r) := by
  induction hn : w.length using Nat.strongRecOn generalizing w with
  | ind n ih =>
    cases w with
    | nil =>
      have hx : goesOn x = false := by
        rw [← Bool.not_eq_true]
        intro hgoes
        obtain ⟨z, hz, -⟩ := hsettled hgoes
        cases hz
      rw [List.nil_append, List.nil_append, decimalLexeme_of_not_goesOn hx, decimalLexeme_of_not_goesOn hx]
    | cons y w =>
      have hlexeme : startsLexeme (y :: (w ++ x :: r')) = startsLexeme (y :: (w ++ x :: r)) := startsLexeme_fork y w
      have hexponent : startsSignedExponent (y :: (w ++ x :: r')) = startsSignedExponent (y :: (w ++ x :: r)) :=
        startsSignedExponent_fork hsettled
      rw [List.cons_append] at h ⊢
      rw [List.cons_append]
      cases h₁ : startsLexeme (y :: (w ++ x :: r)) with
      | true =>
        rw [h₁] at hlexeme
        rw [decimalLexeme_cons h₁, List.length_cons, List.length_cons] at h
        rw [decimalLexeme_cons h₁, decimalLexeme_cons hlexeme]
        have htail := hsettled.tail (not_separates_of_startsLexeme h₁)
        rw [ih w.length (by simp at hn; omega) htail (by omega) rfl]
      | false =>
        rw [h₁] at hlexeme
        cases h₂ : startsSignedExponent (y :: (w ++ x :: r)) with
        | false =>
          rw [h₂] at hexponent
          rw [decimalLexeme_nil h₁ h₂, decimalLexeme_nil hlexeme hexponent]
        | true =>
          rw [h₂] at hexponent
          cases w with
          | nil =>
            rw [List.nil_append, hsettled.not_exponent] at h₂
            cases h₂
          | cons z w =>
            obtain ⟨hy, hz⟩ := (Bool.and_eq_true _ _).mp h₂
            have hsign : (z == '+' || z == '-') = true := ((Bool.and_eq_true _ _).mp hz).1
            have htail := (hsettled.tail (not_separates_of_marker hy)).tail (not_separates_of_sign hsign)
            rw [List.cons_append] at h h₁ h₂ hlexeme hexponent ⊢
            rw [List.cons_append]
            rw [decimalLexeme_signed h₁ h₂, List.length_cons, List.length_cons, List.length_cons, List.length_cons] at h
            rw [decimalLexeme_signed h₁ h₂, decimalLexeme_signed hlexeme hexponent]
            rw [ih w.length (by simp at hn; omega) htail (by omega) rfl]

end Runs

/-! ## (2) Cursors in front of the fork -/

/-- What comes after blanks is not behind what comes after blanks later on. -/
theorem Cursor.Ahead.skipBlanks_position_le {c d : Cursor} (h : Ahead c d) :
    c.skipBlanks.position ≤ d.skipBlanks.position := by
  obtain ⟨w, hw⟩ := h
  by_cases hblank : Blank w
  · exact Nat.le_of_eq (congrArg Cursor.position (Gap.skipBlanks ⟨w, hblank, hw⟩))
  · have hlen : (w.takeWhile isBlank).length ≠ w.length := by
      intro heq
      rw [← List.IsPrefix.eq_of_length (List.takeWhile_prefix _) heq] at hblank
      exact hblank fun _ hx => List.all_eq_true.mp List.all_takeWhile _ hx
    have hgap : c.rest.takeWhile isBlank = w.takeWhile isBlank := by
      rw [hw.1, List.takeWhile_append, if_neg hlen]
    have hskip := (spans_skipBlanks c).2
    have hle := (List.takeWhile_prefix (p := isBlank) (l := w)).length_le
    have hd := (ahead_skipBlanks d).position_le
    rw [hgap] at hskip
    have := hw.2
    omega

variable {k : Fork} {c c' : Cursor}

/-- The same place in both texts, in front of the fork. -/
def Abreast (k : Fork) (c c' : Cursor) : Prop :=
  ∃ v w, v ++ w = k.before ∧
    c = ⟨w ++ k.symbol :: k.after, v.length⟩ ∧ c' = ⟨w ++ k.symbol :: k.after', v.length⟩

theorem abreast_start (k : Fork) : Abreast k (Cursor.start k.text) (Cursor.start k.text') :=
  ⟨[], k.before, rfl, rfl, rfl⟩

section Abreast

variable (h : Abreast k c c')

include h

theorem Abreast.advance {n : Nat} (hn : c.position + n ≤ k.place) : Abreast k (c.advance n) (c'.advance n) := by
  obtain ⟨v, w, hvw, rfl, rfl⟩ := h
  have hlen : n ≤ w.length := by
    replace hn : v.length + n ≤ k.before.length := hn
    rw [← hvw, List.length_append] at hn
    omega
  have hsplit (r : Text) : w ++ k.symbol :: r = w.take n ++ (w.drop n ++ k.symbol :: r) := by
    rw [← List.append_assoc, List.take_append_drop]
  have hadvance (r : Text) : (Cursor.advance ⟨w ++ k.symbol :: r, v.length⟩ n) =
      ⟨w.drop n ++ k.symbol :: r, (v ++ w.take n).length⟩ := by
    have hspans : Spans ⟨w ++ k.symbol :: r, v.length⟩ (w.take n)
        ⟨w.drop n ++ k.symbol :: r, (v ++ w.take n).length⟩ := ⟨hsplit r, List.length_append⟩
    have heq := advance_eq hspans
    rwa [List.length_take, Nat.min_eq_left hlen] at heq
  refine ⟨v ++ w.take n, w.drop n, ?_, hadvance k.after, hadvance k.after'⟩
  rw [List.append_assoc, List.take_append_drop, hvw]

theorem Abreast.position_eq : c'.position = c.position := by
  obtain ⟨v, w, -, rfl, rfl⟩ := h
  rfl

theorem Abreast.next?_eq : c'.next? = c.next? := by
  obtain ⟨v, w, -, rfl, rfl⟩ := h
  cases w <;> rfl

theorem Abreast.exists_next? : ∃ y, c.next? = some y := by
  obtain ⟨v, w, -, rfl, rfl⟩ := h
  cases w with
  | nil => exact ⟨_, rfl⟩
  | cons y w => exact ⟨y, rfl⟩

theorem Abreast.rest_infix : c.rest <:+: k.text := by
  obtain ⟨v, w, hvw, rfl, rfl⟩ := h
  rw [Fork.text, ← hvw, List.append_assoc]
  exact (List.suffix_append v _).isInfix

/-- In front of the fork at least one character of a cursor's text is the same. -/
theorem Abreast.exists_front (hlt : c.position < k.place) : ∃ w, w ≠ [] ∧ w.length = k.place - c.position ∧
    w <:+ k.before ∧ c.rest = w ++ k.symbol :: k.after ∧ c'.rest = w ++ k.symbol :: k.after' := by
  obtain ⟨v, w, hvw, rfl, rfl⟩ := h
  have hplace : k.place = v.length + w.length := by rw [Fork.place, ← hvw, List.length_append]
  replace hlt : v.length < k.place := hlt
  refine ⟨w, ?_, by dsimp only; omega, hvw ▸ List.suffix_append v w, rfl, rfl⟩
  rintro rfl
  simp at hplace
  omega

theorem Abreast.isEmpty : c.rest.isEmpty = false ∧ c'.rest.isEmpty = false := by
  obtain ⟨v, w, -, rfl, rfl⟩ := h
  cases w <;> exact ⟨rfl, rfl⟩

theorem Abreast.unexpected_eq : c'.unexpected = c.unexpected := by
  simp only [Cursor.unexpected, h.next?_eq, h.position_eq]

/-- Runs of a class are the same if they end in front of the fork. -/
theorem Abreast.takeRun {p : Char → Bool} (hp : (c.takeRun p).2.position ≤ k.place) :
    (c'.takeRun p).1 = (c.takeRun p).1 ∧ Abreast k (c.takeRun p).2 (c'.takeRun p).2 := by
  have hposition := (spans_takeRun p c).2
  have hrun : c'.rest.takeWhile p = c.rest.takeWhile p := by
    obtain ⟨v, w, hvw, rfl, rfl⟩ := h
    refine takeWhile_fork p w ?_
    rw [Fork.place, ← hvw, List.length_append] at hp
    simp only [Cursor.takeRun] at hp hposition
    omega
  refine ⟨hrun, ?_⟩
  simp only [Cursor.takeRun, hrun] at hp hposition ⊢
  exact h.advance (by omega)

theorem Abreast.skipBlanks (hp : c.skipBlanks.position ≤ k.place) : Abreast k c.skipBlanks c'.skipBlanks :=
  (h.takeRun (p := isBlank) hp).2

/-- A symbol is taken in both or in none, where the fork is not reached before. -/
theorem Abreast.eatAny? {α : Type} (choose? : Char → Option α) (hp : c.skipBlanks.position ≤ k.place) :
    (c.eatAny? choose? = none ∧ c'.eatAny? choose? = none) ∨ ∃ a d, c.eatAny? choose? = some (a, d) ∧
      (k.place < d.position ∨ ∃ d', c'.eatAny? choose? = some (a, d') ∧ Abreast k d d') := by
  have hskip := h.skipBlanks hp
  obtain ⟨y, hy⟩ := hskip.exists_next?
  have hy' := hskip.next?_eq.trans hy
  have hnext : (c.skipBlanks.advance 1).position = c.skipBlanks.position + 1 := by
    obtain ⟨r, hr⟩ := List.head?_eq_some_iff.mp hy
    exact (spans_next hr).1.2
  simp only [Cursor.eatAny?, hy, hy', Option.bind_eq_bind, Option.bind_some]
  cases choose? y with
  | none => exact Or.inl ⟨rfl, rfl⟩
  | some a =>
    refine Or.inr ⟨a, _, rfl, ?_⟩
    by_cases hlt : k.place < (c.skipBlanks.advance 1).position
    · exact Or.inl hlt
    · exact Or.inr ⟨_, rfl, hskip.advance (by omega)⟩

theorem Abreast.eat? (symbol : Char) (hp : c.skipBlanks.position ≤ k.place) :
    (c.eat? symbol = none ∧ c'.eat? symbol = none) ∨ ∃ d, c.eat? symbol = some d ∧
      (k.place < d.position ∨ ∃ d', c'.eat? symbol = some d' ∧ Abreast k d d') := by
  rcases h.eatAny? (fun x => if x = symbol then some () else none) hp with
    ⟨hn, hn'⟩ | ⟨a, d, hd, hpass | ⟨d', hd', hab⟩⟩
  · exact Or.inl ⟨by rw [Cursor.eat?, hn]; rfl, by rw [Cursor.eat?, hn']; rfl⟩
  · exact Or.inr ⟨d, by rw [Cursor.eat?, hd]; rfl, Or.inl hpass⟩
  · exact Or.inr ⟨d, by rw [Cursor.eat?, hd]; rfl, Or.inr ⟨d', by rw [Cursor.eat?, hd']; rfl, hab⟩⟩

theorem Abreast.eatOperator? (ops : List Operator) (hp : c.skipBlanks.position ≤ k.place) :
    (eatOperator? ops c = none ∧ eatOperator? ops c' = none) ∨ ∃ op d, eatOperator? ops c = some (op, d) ∧
      (k.place < d.position ∨ ∃ d', eatOperator? ops c' = some (op, d') ∧ Abreast k d d') :=
  h.eatAny? _ hp

end Abreast

namespace CallStack

variable {s s' : Setting} {factorial : Bool} {m m' : State} {q : Nat}

/-! ## (3) What has been passed -/

/-- No character before `q` is refused. -/
def NotBefore (q : Nat) : ExpressionError → Prop
  | .grammar (.unexpectedCharacter _ p) => q ≤ p
  | _ => True

/-- No character before `q` is refused any more. -/
def State.Beyond (q : Nat) (m : State) : Prop :=
  match m.control with
  | .failed e => NotBefore q e
  | _ => q ≤ m.cursor.skipBlanks.position

def Control.hasFailed : Control → Bool
  | .failed _ => true
  | .call _ | .further _ _ | .products _ | .answer _ => false

theorem NotBefore.mono {q' : Nat} {e : ExpressionError} (h : NotBefore q e) (hq : q' ≤ q) : NotBefore q' e := by
  unfold NotBefore at h ⊢
  split at h
  · exact Nat.le_trans hq h
  · trivial

theorem notBefore_unexpected (h : q ≤ c.position) : NotBefore q (.grammar c.unexpected) := by
  unfold Cursor.unexpected
  split
  · exact h
  · trivial

theorem State.Beyond.mono {q' : Nat} (h : m.Beyond q) (hq : q' ≤ q) : m.Beyond q' := by
  unfold State.Beyond at h ⊢
  split at h
  · exact h.mono hq
  · exact Nat.le_trans hq h

section Beyond

variable {control : Control} {d : Cursor} {depth : Nat} {frames : List Frame} (hcontrol : control.hasFailed = false)

include hcontrol

theorem beyond_of_skipBlanks (h : q ≤ d.skipBlanks.position) : State.Beyond q ⟨control, d, depth, frames⟩ := by
  cases control with
  | failed => cases hcontrol
  | call | further | products | answer => exact h

theorem beyond_of_position (h : q ≤ d.position) : State.Beyond q ⟨control, d, depth, frames⟩ :=
  beyond_of_skipBlanks hcontrol (Nat.le_trans h (ahead_skipBlanks d).position_le)

theorem beyond_of_ahead (h : Ahead c d) : State.Beyond c.skipBlanks.position ⟨control, d, depth, frames⟩ :=
  beyond_of_skipBlanks hcontrol h.skipBlanks_position_le

end Beyond

theorem beyond_settle {r : Except DomainError Binary64} {next : Binary64 → State} (hn : ∀ y, (next y).Beyond q) :
    (m.settle r next).Beyond q := by
  cases r with
  | ok y => exact hn y
  | error d => trivial

/-- A literal that ends at `q` or behind, or a fault there. -/
def LiteralBeyond (q : Nat) (literal : Expression × Cursor) : Prop :=
  (∃ x, literal.1 = .number x ∧ q ≤ literal.2.position) ∨
    ∃ f, literal.1 = .fault f ∧ NotBefore q (.grammar f)

theorem literalBeyond_readDecimal (h : q ≤ (c.advance (decimalLexeme c.rest).length).position) :
    LiteralBeyond q (readDecimal c) := by
  simp only [readDecimal]
  split
  · exact Or.inl ⟨_, rfl, h⟩
  · exact Or.inr ⟨_, rfl, trivial⟩

theorem literalBeyond_readHexadecimal (h : q ≤ ((c.advance 2).takeRun Digit.isDigit).2.position) :
    LiteralBeyond q (readHexadecimal c) := by
  simp only [readHexadecimal]
  split
  · exact Or.inr ⟨_, rfl, notBefore_unexpected h⟩
  split
  · exact Or.inl ⟨_, rfl, h⟩
  · exact Or.inr ⟨_, rfl, trivial⟩

theorem beyond_answerLiteral {literal : Expression × Cursor} (h : LiteralBeyond q literal) :
    (answerLiteral s m literal).Beyond q := by
  unfold answerLiteral
  rcases h with ⟨x, hx, hq⟩ | ⟨f, hf, hq⟩
  · split
    · exact beyond_of_position rfl hq
    · rename_i e he
      rw [hx] at he
      obtain ⟨d, -, rfl⟩ := mapError_eq_error.mp he
      trivial
  · rw [hf]
    exact hq

theorem beyond_callNamed (h : q ≤ (c.takeRun isAlphabetic).2.position) : (callNamed s m c).Beyond q := by
  simp only [callNamed]
  split
  · exact beyond_of_position rfl h
  · exact beyond_of_position rfl h
  · trivial

/-- An atom begins with a character that starts a factor, and passes it. -/
theorem beyond_callAtom_of_starts {y : Char} (hy : m.cursor.skipBlanks.next? = some y) (hstarts : startsFactor y = true) :
    (callAtom s m).Beyond (m.cursor.skipBlanks.position + 1) := by
  obtain ⟨rest, hrest⟩ := List.head?_eq_some_iff.mp hy
  have hnext : (m.cursor.skipBlanks.advance 1).position = m.cursor.skipBlanks.position + 1 := (spans_next hrest).1.2
  have hahead := Nat.le_of_eq hnext.symm
  have hne : m.cursor.skipBlanks.rest ≠ [] := by rw [hrest]; exact List.cons_ne_nil _ _
  simp only [callAtom, hrest]
  split
  · exact beyond_of_position rfl hahead
  rename_i hparenthesis
  split
  · rename_i hx
    rw [← hrest] at hx
    obtain ⟨marker, -, hs⟩ := spans_isHexadecimal hx
    have hmarker : (m.cursor.skipBlanks.advance 2).position = m.cursor.skipBlanks.position + 2 := hs.2
    have hafter := Ahead.position_le ⟨_, spans_takeRun Digit.isDigit (m.cursor.skipBlanks.advance 2)⟩
    exact beyond_answerLiteral (literalBeyond_readHexadecimal (by omega))
  split
  · rename_i hx
    have hlexeme : decimalLexeme m.cursor.skipBlanks.rest ≠ [] := by
      rw [hrest]
      exact decimalLexeme_ne_nil (by simpa using hx)
    have hafter := ((spans_decimalLexeme m.cursor.skipBlanks).passes hlexeme).position_lt hne
    exact beyond_answerLiteral (literalBeyond_readDecimal hafter)
  rename_i hdecimal
  split
  · exact beyond_of_position rfl hahead
  rename_i hroot
  split
  · rename_i hx
    have hname : (m.cursor.skipBlanks.takeRun isAlphabetic).1 ≠ [] := by
      simp [Cursor.takeRun, hrest, hx]
    have hafter := ((spans_takeRun isAlphabetic m.cursor.skipBlanks).passes hname).position_lt hne
    exact beyond_callNamed hafter
  · simp_all [startsFactor]

/-- Any other character is refused. -/
theorem callAtom_of_other {y : Char} (hy : m.cursor.skipBlanks.next? = some y) (hother : startsFactor y = false) :
    callAtom s m = m.fail (.grammar m.cursor.skipBlanks.unexpected) := by
  obtain ⟨rest, hrest⟩ := List.head?_eq_some_iff.mp hy
  have hhexadecimal : isHexadecimal (y :: rest) = false := by
    refine isHexadecimal_of_ne ?_
    rintro rfl
    cases hother
  simp only [startsFactor, Bool.or_eq_false_iff] at hother
  simp [callAtom, hrest, hhexadecimal, hother]

theorem beyond_callAtom : (callAtom s m).Beyond m.cursor.skipBlanks.position := by
  cases hy : m.cursor.skipBlanks.next? with
  | none =>
    have hrest : m.cursor.skipBlanks.rest = [] := List.head?_eq_none_iff.mp hy
    simp only [callAtom, hrest]
    exact notBefore_unexpected (Nat.le_refl _)
  | some y =>
    cases hstarts : startsFactor y with
    | true => exact (beyond_callAtom_of_starts hy hstarts).mono (Nat.le_succ _)
    | false =>
      rw [callAtom_of_other hy hstarts]
      exact notBefore_unexpected (Nat.le_refl _)

theorem beyond_callUnary : (callUnary m).Beyond m.cursor.skipBlanks.position := by
  unfold callUnary
  split
  · rename_i d hd
    exact beyond_of_ahead rfl ((eat?_eq_some_iff rfl).mp hd).ahead
  split
  · rename_i d hd
    exact beyond_of_ahead rfl ((eat?_eq_some_iff rfl).mp hd).ahead
  · exact beyond_of_ahead rfl (Ahead.refl _)

theorem beyond_enter {next : State → State} (h : (next { m with depth := m.depth + 1 }).Beyond q) :
    (m.enter next).Beyond q := by
  unfold State.enter
  split
  · exact h
  · trivial

theorem beyond_call (level : Level) : (call s m level).Beyond m.cursor.skipBlanks.position := by
  cases level with
  | chain tier => exact beyond_of_ahead rfl (Ahead.refl _)
  | factor => exact beyond_enter (beyond_of_ahead rfl (Ahead.refl _))
  | unary => exact beyond_enter beyond_callUnary
  | atom => exact beyond_callAtom

theorem beyond_resume (x : Binary64) (frame : Frame) :
    (resume s factorial m x frame).Beyond m.cursor.skipBlanks.position := by
  have here {control : Control} {depth : Nat} (hcontrol : control.hasFailed = false) :
      State.Beyond m.cursor.skipBlanks.position ⟨control, m.cursor, depth, m.frames⟩ :=
    beyond_of_ahead hcontrol (Ahead.refl _)
  cases frame with
  | first tier => exact here rfl
  | right tier op l => exact beyond_settle fun y => here rfl
  | operand =>
    simp only [resume]
    split
    · rename_i c he
      split at he
      · exact beyond_settle fun y => beyond_of_ahead rfl ((eat?_eq_some_iff rfl).mp he).ahead
      · cases he
    · exact here rfl
  | product l => exact beyond_settle fun y => here rfl
  | sign negative => exact here rfl
  | base =>
    simp only [resume]
    split
    · rename_i c he
      exact beyond_of_ahead rfl ((eat?_eq_some_iff rfl).mp he).ahead
    · exact here rfl
  | exponent b => exact beyond_settle fun y => here rfl
  | parenthesis o =>
    simp only [resume]
    split
    · rename_i c he
      exact beyond_of_ahead rfl ((eat?_eq_some_iff rfl).mp he).ahead
    · split
      · trivial
      · exact notBefore_unexpected (Nat.le_refl _)
  | argument f => exact beyond_settle fun y => here rfl

theorem beyond_goOn (tier : Tier) (x : Binary64) : (goOn m tier x).Beyond m.cursor.skipBlanks.position := by
  unfold goOn
  split
  · rename_i op c he
    exact beyond_of_ahead rfl (eatOperator?_eq_some_iff.mp he).2.ahead
  · exact beyond_of_ahead rfl (Ahead.refl _)

theorem beyond_multiplyOn (x : Binary64) : (multiplyOn m x).Beyond m.cursor.skipBlanks.position := by
  unfold multiplyOn
  split <;> exact beyond_of_ahead rfl (Ahead.refl _)

/-- A step leaves behind the blanks before it. -/
theorem beyond_next (hs : step s factorial m = some m') : m'.Beyond m.cursor.skipBlanks.position := by
  unfold step at hs
  split at hs
  · cases hs
    exact beyond_call _
  · cases hs
    exact beyond_goOn _ _
  · cases hs
    exact beyond_multiplyOn _
  · split at hs
    · cases hs
    · cases hs
      exact beyond_resume _ _
  · cases hs

theorem beyond_step (h : m.Beyond q) (hs : step s factorial m = some m') : m'.Beyond q := by
  refine (beyond_next hs).mono ?_
  unfold step at hs
  unfold State.Beyond at h
  cases hc : m.control with
  | failed e =>
    rw [hc] at hs
    cases hs
  | call | further | products | answer => simpa only [hc] using h

theorem beyond_of_reaches (h : m.Beyond q) (hr : Reaches s factorial m m') : m'.Beyond q := by
  induction hr with
  | refl => exact h
  | head hs _ ih => exact ih (beyond_step h hs)

/-! ## (4) In lockstep -/

/-- The machine is in the same state at the same place in front of the fork, or has passed it. -/
def InStep (k : Fork) (m m' : State) : Prop :=
  m.Beyond (k.place + 1) ∨ ∃ c', Abreast k m.cursor c' ∧ m' = { m with cursor := c' }

theorem inStep_of_abreast {control : Control} {d d' : Cursor} {depth : Nat} {frames : List Frame} (h : Abreast k d d') :
    InStep k ⟨control, d, depth, frames⟩ ⟨control, d', depth, frames⟩ := Or.inr ⟨d', h, rfl⟩

theorem inStep_settle {r : Except DomainError Binary64} {next next' : Binary64 → State}
    (hn : ∀ y, InStep k (next y) (next' y)) : InStep k (m.settle r next) (m'.settle r next') := by
  cases r with
  | ok y => exact hn y
  | error d => exact Or.inl trivial

theorem inStep_enter {next : State → State} (hn : InStep k (next { m with depth := m.depth + 1 })
    (next { m with cursor := c', depth := m.depth + 1 })) :
    InStep k (m.enter next) (State.enter { m with cursor := c' } next) := by
  simp only [State.enter]
  split
  · exact hn
  · exact Or.inl trivial

section InStep

variable (h : Abreast k m.cursor c')

include h

theorem inStep_fail (e : ExpressionError) : InStep k (m.fail e) (State.fail { m with cursor := c' } e) :=
  Or.inr ⟨c', h, rfl⟩

variable (hp : m.cursor.skipBlanks.position ≤ k.place)

include hp

theorem inStep_callUnary : InStep k (callUnary m) (callUnary { m with cursor := c' }) := by
  unfold callUnary
  rcases h.eat? '+' hp with ⟨hn, hn'⟩ | ⟨d, hd, hpassed | ⟨d', hd', hab⟩⟩
  · rcases h.eat? '-' hp with ⟨hm, hm'⟩ | ⟨d, hd, hpassed | ⟨d', hd', hab⟩⟩
    · simp only [hn, hn', hm, hm']
      exact inStep_of_abreast h
    · simp only [hn, hd]
      exact Or.inl (beyond_of_position rfl hpassed)
    · simp only [hn, hn', hd, hd']
      exact inStep_of_abreast hab
  · simp only [hd]
    exact Or.inl (beyond_of_position rfl hpassed)
  · simp only [hd, hd']
    exact inStep_of_abreast hab

theorem inStep_goOn (tier : Tier) (x : Binary64) : InStep k (goOn m tier x) (goOn { m with cursor := c' } tier x) := by
  unfold goOn
  rcases h.eatOperator? tier.operators hp with ⟨hn, hn'⟩ | ⟨op, d, hd, hpassed | ⟨d', hd', hab⟩⟩
  · simp only [hn, hn']
    exact inStep_of_abreast h
  · simp only [hd]
    exact Or.inl (beyond_of_position rfl hpassed)
  · simp only [hd, hd']
    exact inStep_of_abreast hab

omit hp in
theorem inStep_multiplyOn (x : Binary64) : InStep k (multiplyOn m x) (multiplyOn { m with cursor := c' } x) := by
  unfold multiplyOn
  rw [h.next?_eq]
  split <;> exact inStep_of_abreast h

theorem inStep_resume (hs : s'.elementary = s.elementary) (x : Binary64) (frame : Frame) :
    InStep k (resume s factorial m x frame) (resume s' factorial { m with cursor := c' } x frame) := by
  cases frame with
  | first tier => exact inStep_of_abreast h
  | right tier op l =>
    simp only [resume, hs]
    exact inStep_settle fun y => inStep_of_abreast h
  | operand =>
    cases factorial with
    | false => exact inStep_of_abreast h
    | true =>
      simp only [resume, if_true]
      rcases h.eat? '!' hp with ⟨hn, hn'⟩ | ⟨d, hd, hpassed | ⟨d', hd', hab⟩⟩
      · simp only [hn, hn']
        exact inStep_of_abreast h
      · simp only [hd]
        exact Or.inl (beyond_settle fun y => beyond_of_position rfl hpassed)
      · simp only [hd, hd']
        exact inStep_settle fun y => inStep_of_abreast hab
  | product l =>
    simp only [resume, hs]
    exact inStep_settle fun y => inStep_of_abreast h
  | sign negative => exact inStep_of_abreast h
  | base =>
    simp only [resume]
    rcases h.eat? '^' hp with ⟨hn, hn'⟩ | ⟨d, hd, hpassed | ⟨d', hd', hab⟩⟩
    · simp only [hn, hn']
      exact inStep_of_abreast h
    · simp only [hd]
      exact Or.inl (beyond_of_position rfl hpassed)
    · simp only [hd, hd']
      exact inStep_of_abreast hab
  | exponent b =>
    simp only [resume, hs]
    exact inStep_settle fun y => inStep_of_abreast h
  | parenthesis o =>
    have hskip := h.skipBlanks hp
    simp only [resume]
    rcases h.eat? ')' hp with ⟨hn, hn'⟩ | ⟨d, hd, hpassed | ⟨d', hd', hab⟩⟩
    · simp only [hn, hn', hskip.isEmpty, hskip.unexpected_eq]
      exact inStep_fail h _
    · simp only [hd]
      exact Or.inl (beyond_of_position rfl hpassed)
    · simp only [hd, hd']
      exact inStep_of_abreast hab
  | argument f =>
    simp only [resume, hs]
    exact inStep_settle fun y => inStep_of_abreast h

end InStep

/-! ### Atoms in lockstep -/

/-- The same literal or fault in both texts. -/
def LiteralInStep (k : Fork) (literal literal' : Expression × Cursor) : Prop :=
  (∃ x, literal.1 = .number x ∧ literal'.1 = .number x ∧ Abreast k literal.2 literal'.2) ∨
    ∃ f, literal.1 = .fault f ∧ literal'.1 = .fault f

theorem inStep_answerLiteral {literal literal' : Expression × Cursor} (h : Abreast k m.cursor c')
    (hl : LiteralBeyond (k.place + 1) literal ∨ LiteralInStep k literal literal') :
    InStep k (answerLiteral s m literal) (answerLiteral s' { m with cursor := c' } literal') := by
  rcases hl with hbeyond | ⟨x, hx, hx', hab⟩ | ⟨f, hf, hf'⟩
  · exact Or.inl (beyond_answerLiteral hbeyond)
  · unfold answerLiteral
    rw [hx, hx']
    simp only [value]
    cases checked x with
    | ok y => exact inStep_of_abreast hab
    | error d => exact Or.inl trivial
  · unfold answerLiteral
    rw [hf, hf']
    exact inStep_fail h _

section Atom

variable (h : Abreast k c c')

include h

theorem inStep_readHexadecimal (hx : isHexadecimal c.rest = true) :
    LiteralBeyond (k.place + 1) (readHexadecimal c) ∨ LiteralInStep k (readHexadecimal c) (readHexadecimal c') := by
  obtain ⟨marker, -, hs⟩ := spans_isHexadecimal hx
  by_cases hpassed : k.place < ((c.advance 2).takeRun Digit.isDigit).2.position
  · exact Or.inl (literalBeyond_readHexadecimal hpassed)
  · have hrun := Ahead.position_le ⟨_, spans_takeRun Digit.isDigit (c.advance 2)⟩
    have hmarker : (c.advance 2).position = c.position + 2 := hs.2
    obtain ⟨hdigits, hafter⟩ := (h.advance (n := 2) (by omega)).takeRun (p := Digit.isDigit) (by omega)
    refine Or.inr ?_
    simp only [readHexadecimal, hdigits, hafter.unexpected_eq]
    split
    · exact Or.inr ⟨_, rfl, rfl⟩
    split
    · exact Or.inl ⟨_, rfl, rfl, hafter⟩
    · exact Or.inr ⟨_, rfl, rfl⟩

theorem inStep_readDecimal (hk : Settled k.before k.symbol) (hlt : c.position < k.place) :
    LiteralBeyond (k.place + 1) (readDecimal c) ∨ LiteralInStep k (readDecimal c) (readDecimal c') := by
  have hposition := (spans_decimalLexeme c).2
  by_cases hpassed : k.place < (c.advance (decimalLexeme c.rest).length).position
  · exact Or.inl (literalBeyond_readDecimal hpassed)
  · have hlexeme : decimalLexeme c'.rest = decimalLexeme c.rest := by
      obtain ⟨w, hw, hlen, ⟨v, hv⟩, hrest, hrest'⟩ := h.exists_front hlt
      rw [← hv] at hk
      rw [hrest] at hposition hpassed ⊢
      rw [hrest']
      exact decimalLexeme_fork (hk.of_append hw) (by omega)
    have hafter := h.advance (n := (decimalLexeme c.rest).length) (by omega)
    refine Or.inr ?_
    simp only [readDecimal, hlexeme]
    split
    · exact Or.inl ⟨_, rfl, rfl, hafter⟩
    · exact Or.inr ⟨_, rfl, rfl⟩

/-- A constant has the same value in both texts unless it is drawn. -/
theorem inStep_callNamed (hr : RandFree k.text) {c₁ : Cursor} (hm : Abreast k m.cursor c₁) :
    InStep k (callNamed s m c) (callNamed s' { m with cursor := c₁ } c') := by
  by_cases hpassed : k.place < (c.takeRun isAlphabetic).2.position
  · exact Or.inl (beyond_callNamed hpassed)
  · obtain ⟨hname, hafter⟩ := h.takeRun (p := isAlphabetic) (by omega)
    have hpart : (c.takeRun isAlphabetic).1 <:+: k.text := (List.takeWhile_prefix _).isInfix.trans h.rest_infix
    simp only [callNamed, hname]
    cases hn : Identifier.ofText? (c.takeRun isAlphabetic).1 with
    | none => exact inStep_fail hm _
    | some identifier =>
      cases identifier with
      | function f => exact inStep_of_abreast hafter
      | constant a =>
        have ha : a ≠ .random := by
          rintro rfl
          exact hr _ hpart hn
        simp only [value_constant ha s'.chance s.chance c'.position c.position]
        exact inStep_of_abreast hafter

end Atom

theorem inStep_callAtom (hk : Settled k.before k.symbol) (hr : RandFree k.text) (h : Abreast k m.cursor c')
    (hp : m.cursor.skipBlanks.position ≤ k.place) :
    InStep k (callAtom s m) (callAtom s' { m with cursor := c' }) := by
  have hskip := h.skipBlanks hp
  obtain ⟨y, hy⟩ := hskip.exists_next?
  have hy' := hskip.next?_eq.trans hy
  cases hstarts : startsFactor y with
  | false =>
    rw [callAtom_of_other hy hstarts, callAtom_of_other hy' hstarts, hskip.unexpected_eq]
    exact inStep_fail h _
  | true =>
  -- at the fork an atom passes it, in front of it the atom begins in the same way
  rcases Nat.eq_or_lt_of_le hp with hat | hlt
  · exact Or.inl (hat ▸ beyond_callAtom_of_starts hy hstarts)
  obtain ⟨rest, hrest⟩ := List.head?_eq_some_iff.mp hy
  obtain ⟨rest', hrest'⟩ := List.head?_eq_some_iff.mp hy'
  have hposition : (m.cursor.skipBlanks.advance 1).position = m.cursor.skipBlanks.position + 1 := (spans_next hrest).1.2
  have hnext := hskip.advance (n := 1) (by omega)
  have hhexadecimal : isHexadecimal (y :: rest') = isHexadecimal (y :: rest) := by
    obtain ⟨w, hw, -, -, hfront, hfront'⟩ := hskip.exists_front hlt
    rw [← hrest, ← hrest', hfront, hfront']
    exact isHexadecimal_fork hw
  simp only [callAtom, hrest, hrest', hhexadecimal, hskip.position_eq]
  split
  · exact inStep_of_abreast hnext
  split
  · rename_i hx
    exact inStep_answerLiteral h (inStep_readHexadecimal hskip (by rw [hrest]; exact hx))
  split
  · exact inStep_answerLiteral h (inStep_readDecimal hskip hk hlt)
  split
  · exact inStep_of_abreast hnext
  split
  · exact inStep_callNamed hskip hr h
  · rw [hskip.unexpected_eq]
    exact inStep_fail h _

theorem inStep_call (hk : Settled k.before k.symbol) (hr : RandFree k.text) (h : Abreast k m.cursor c')
    (hp : m.cursor.skipBlanks.position ≤ k.place) (level : Level) :
    InStep k (call s m level) (call s' { m with cursor := c' } level) := by
  cases level with
  | chain tier => exact inStep_of_abreast h
  | factor =>
    simp only [call]
    exact inStep_enter (inStep_of_abreast h)
  | unary =>
    simp only [call]
    exact inStep_enter (inStep_callUnary (m := { m with depth := m.depth + 1 }) h hp)
  | atom => exact inStep_callAtom hk hr h hp

/-! ## (5) Over a run -/

theorem inStep_start (k : Fork) : InStep k (start k.text) (start k.text') := by
  by_cases hp : (Cursor.start k.text).skipBlanks.position ≤ k.place
  · have hskip := (abreast_start k).skipBlanks hp
    simp only [start, hskip.isEmpty, Bool.false_eq_true, if_false]
    exact inStep_of_abreast hskip
  · refine Or.inl ?_
    cases he : (Cursor.start k.text).skipBlanks.rest.isEmpty with
    | true =>
      simp only [start, he, if_true]
      exact trivial
    | false =>
      simp only [start, he, Bool.false_eq_true, if_false]
      exact beyond_of_position rfl (Nat.lt_of_not_le hp)

section Run

variable (hs : s'.elementary = s.elementary) (hk : Settled k.before k.symbol) (hr : RandFree k.text)

include hs hk hr

theorem inStep_step {n : State} (h : Abreast k m.cursor c') (hstep : step s factorial m = some n) :
    ∃ n', step s' factorial { m with cursor := c' } = some n' ∧ InStep k n n' := by
  have hbeyond := beyond_next hstep
  have near {n' : State} (hn : m.cursor.skipBlanks.position ≤ k.place → InStep k n n') : InStep k n n' := by
    by_cases hp : m.cursor.skipBlanks.position ≤ k.place
    · exact hn hp
    · exact Or.inl (hbeyond.mono (Nat.lt_of_not_le hp))
  obtain ⟨control, c, depth, frames⟩ := m
  cases control with
  | failed e => cases hstep
  | further tier x =>
    cases hstep
    exact ⟨_, rfl, near fun hp => inStep_goOn h hp tier x⟩
  | products x =>
    cases hstep
    exact ⟨_, rfl, inStep_multiplyOn h x⟩
  | answer x =>
    cases frames with
    | nil => cases hstep
    | cons frame frames =>
      cases hstep
      exact ⟨_, rfl, near fun hp => inStep_resume (m := ⟨.answer x, c, depth, frames⟩) h hp hs x frame⟩
  | call level =>
    cases hstep
    exact ⟨_, rfl, near fun hp => inStep_call (m := ⟨.call level, c, depth, frames⟩) hk hr h hp level⟩

theorem inStep_of_reaches {n : State} (h : InStep k m m') (hreach : Reaches s factorial m n) :
    ∃ n', Reaches s' factorial m' n' ∧ InStep k n n' := by
  induction hreach generalizing m' with
  | refl => exact ⟨m', .refl, h⟩
  | head hstep hrest ih =>
    rcases h with hbeyond | ⟨c', hab, rfl⟩
    · exact ⟨m', .refl, Or.inl (beyond_of_reaches hbeyond (.head hstep hrest))⟩
    · obtain ⟨n', hstep', hn⟩ := inStep_step hs hk hr hab hstep
      obtain ⟨o, ho, hin⟩ := ih hn
      exact ⟨o, .head hstep' ho, hin⟩

end Run

theorem unexpected_eq_iff {x : Char} {p : Nat} :
    c.unexpected = .unexpectedCharacter x p ↔ c.next? = some x ∧ c.position = p := by
  unfold Cursor.unexpected
  cases c.next? <;> simp

/-- Where one run ends with the character at the fork, so does the other. -/
theorem InStep.result?_eq (h : InStep k m m') {x : Char}
    (hr : m.result? = some (.error (.grammar (.unexpectedCharacter x k.place)))) : m'.result? = m.result? := by
  obtain ⟨control, c, depth, frames⟩ := m
  cases control with
  | call | further | products => cases hr
  | failed e =>
    cases hr
    rcases h with hbeyond | ⟨c', -, rfl⟩
    · exact absurd hbeyond (Nat.not_succ_le_self _)
    · rfl
  | answer v =>
    cases frames with
    | cons => cases hr
    | nil =>
      have hunexpected : c.skipBlanks.unexpected = .unexpectedCharacter x k.place := by
        simp only [State.result?] at hr
        split at hr
        · cases hr
        · exact ExpressionError.grammar.inj (Except.error.inj (Option.some.inj hr))
      have hplace := (unexpected_eq_iff.mp hunexpected).2
      rcases h with hbeyond | ⟨c', hab, rfl⟩
      · replace hbeyond : k.place + 1 ≤ c.skipBlanks.position := hbeyond
        omega
      · have hskip := hab.skipBlanks (Nat.le_of_eq hplace)
        simp only [State.result?, hskip.isEmpty, hskip.unexpected_eq]

theorem step_of_result? {r : Except ExpressionError Binary64} (h : m.result? = some r) : step s factorial m = none := by
  obtain ⟨control, c, depth, frames⟩ := m
  cases control with
  | call | further | products => cases h
  | failed e => rfl
  | answer x =>
    cases frames with
    | nil => rfl
    | cons => cases h

/-- A run has one result. -/
theorem Reaches.result_unique {n n' : State} {r r' : Except ExpressionError Binary64} (h : Reaches s factorial m n)
    (h' : Reaches s factorial m n') (hr : n.result? = some r) (hr' : n'.result? = some r') : r = r' := by
  induction h with
  | refl =>
    cases h' with
    | refl => exact Option.some.inj (hr.symm.trans hr')
    | head hstep => cases (step_of_result? hr).symm.trans hstep
  | head hstep _ ih =>
    cases h' with
    | refl => cases (step_of_result? hr').symm.trans hstep
    | head hstep' hrest' =>
      obtain rfl := Option.some.inj (hstep.symm.trans hstep')
      exact ih hrest' hr

end CallStack

namespace Expression

variable {s s' : Setting} {language : Language}

theorem grammarValue_fork {k : Fork} {x : Char} (hs : s'.elementary = s.elementary) (hk : Settled k.before k.symbol)
    (hr : RandFree k.text) (h : grammarValue s language k.text = .error (.grammar (.unexpectedCharacter x k.place))) :
    grammarValue s' language k.text' = .error (.grammar (.unexpectedCharacter x k.place)) := by
  obtain ⟨m, hreach, hresult⟩ := CallStack.reaches_grammarValue s language k.text
  obtain ⟨m', hreach', hresult'⟩ := CallStack.reaches_grammarValue s' language k.text'
  obtain ⟨n, hn, hin⟩ := CallStack.inStep_of_reaches hs hk hr (CallStack.inStep_start k) hreach
  rw [h] at hresult
  exact hreach'.result_unique hn hresult' ((hin.result?_eq hresult).trans hresult)

theorem grammarValue_eq_empty_iff (s : Setting) (language : Language) (t : Text) :
    grammarValue s language t = .error (.grammar .empty) ↔ Blank t := by
  constructor
  · intro h
    exact pointsInto_of_grammarValue h
  · intro h
    have hrest : (Cursor.start t).skipBlanks.rest.isEmpty = true := List.isEmpty_iff.mpr (blank_iff.mp h)
    simp only [grammarValue, read, hrest, if_true]
    rfl

/-- Errors point to their places. The text is empty exactly if it is blank; the refused character stands at the place
that is named, and so does the parenthesis that is left open; nesting is too deep somewhere in the text. That a character
is refused depends on the text up to this character alone: whatever comes after it, the error is the same. -/
theorem errors_point_to_their_places (s : Setting) (language : Language) (t : Text) :
    (grammarValue s language t = .error (.grammar .empty) ↔ ∀ x ∈ t, isBlank x = true) ∧
    (∀ x p, grammarValue s language t = .error (.grammar (.unexpectedCharacter x p)) → t[p]? = some x ∧
      (RandFree t → ∀ s' t', s'.elementary = s.elementary → t'.take (p + 1) = t.take (p + 1) →
        grammarValue s' language t' = .error (.grammar (.unexpectedCharacter x p)))) ∧
    (∀ p, grammarValue s language t = .error (.grammar (.unbalancedParenthesis p)) → t[p]? = some '(') ∧
    ∀ p, grammarValue s language t = .error (.grammar (.nestedTooDeeply p)) → p ≤ t.length := by
  refine ⟨grammarValue_eq_empty_iff s language t, fun x p h => ?_, fun p h => pointsInto_of_grammarValue h,
    fun p h => pointsInto_of_grammarValue h⟩
  have hblamed : Blamed t x p := pointsInto_of_grammarValue h
  refine ⟨hblamed.getElem?, fun hr s' t' hs ht => ?_⟩
  obtain ⟨before, after, rfl, rfl, hsettled⟩ := hblamed
  have htake : (before ++ x :: after).take (before.length + 1) = before ++ [x] := by
    rw [List.take_length_add_append]
    rfl
  have hsplit : t' = before ++ x :: t'.drop (before.length + 1) := by
    have hjoin := List.take_append_drop (before.length + 1) t'
    rw [ht, htake, List.append_assoc] at hjoin
    exact hjoin.symm
  rw [hsplit]
  exact grammarValue_fork (k := ⟨before, x, after, t'.drop (before.length + 1)⟩) hs hsettled hr h

/-- The letter behind `0x` is refused, whatever comes after it. -/
theorem errors_point_to_their_places_missing_digit :
    let s : Setting := ⟨⟨fun _ x => x, fun x _ => x⟩, fun _ => ⟨0, twoPow_pos 53⟩⟩
    let t := "1+0xg".toList
    let e := ExpressionError.grammar (.unexpectedCharacter 'g' 4)
    RandFree t ∧ grammarValue s .full t = .error e ∧ t[4]? = some 'g' ∧
      ∀ u, grammarValue s .full (t ++ u) = .error e := by
  intro s t e
  have hr : RandFree t := randFree_of_letters (by decide)
  have ht : grammarValue s .full t = .error e := by decide +kernel
  obtain ⟨hg, hsame⟩ := (errors_point_to_their_places s .full t).2.1 'g' 4 ht
  exact ⟨hr, ht, hg, fun u => hsame hr s (t ++ u) rfl rfl⟩

end Expression

end Positional
