/-
  Positional.Proofs.Expression.Respelling — two spellings of a text are read alike.

  Two cursors run `Along` each other if what is left of one text respells what is left of the other.
  The moves of a cursor keep this, and no reader tells the two apart: it reads expressions that
  are the same but for what the spelling shows (`Respelled`), and leaves cursors along each other.
  This is shown for the literals, then for repetitions, then for all parts by induction on
  the depth (`readersAgree_unary_factor`), so that whole texts are read alike (`read_respelled`).

  What the spelling shows: the places of constants and faults where blanks are exchanged, the
  characters that a fault repeats, and the blank that is found right after `0x`, the one place
  where blanks are not left out first. Languages with and without the factorial are told apart
  by its mark only, so they count as one where the mark has no spelling.
-/
import Positional.Proofs.Expression.Draws
import Positional.Proofs.Expression.Movement
import Positional.Proofs.Expression.Reading
import Positional.Proofs.Text.Respelling

namespace Positional

open Cursor Respelling

/-- Two spellings of a text. Where blanks are exchanged places differ, so there are no draws. -/
structure Respelling.Texts (L : Respelling) (t u : Text) : Prop where
  respells : L.Respells t u
  randFree : L.gaps → RandFree t

/-- The same place, if blanks are not exchanged. -/
def Respelling.Place (L : Respelling) (p q : Nat) : Prop := L.gaps ∨ p = q

namespace Cursor

/-- Two cursors in two spellings of a text, with the same left to read. -/
structure Along (L : Respelling) (t u : Text) (c d : Cursor) : Prop where
  texts : L.Texts t u
  rest : L.Respells c.rest d.rest
  left : Within t c
  right : Within u d

variable {L : Respelling} {t u : Text} {c d : Cursor}

/-! ## (1) Cursors -/

theorem Within.length_eq (h : Within t c) : c.position + c.rest.length = t.length := by
  rw [h.2, List.length_drop]
  exact Nat.add_sub_cancel' h.1

theorem Along.place (h : Along L t u c d) : L.Place c.position d.position := by
  rcases h.texts.respells.length with hg | htu
  · exact Or.inl hg
  rcases h.rest.length with hg | hcd
  · exact Or.inl hg
  have := h.left.length_eq
  have := h.right.length_eq
  exact Or.inr (by omega)

theorem Along.length_le (h : Along L t u c d) : c.rest.length ≤ t.length ∧ d.rest.length ≤ u.length := by
  have := h.left.length_eq
  have := h.right.length_eq
  omega

theorem along_start (h : L.Texts t u) : Along L t u (Cursor.start t) (Cursor.start u) :=
  ⟨h, h.respells, within_start t, within_start u⟩

theorem Along.isEmpty (h : Along L t u c d) : c.rest.isEmpty = d.rest.isEmpty := by
  have hr := h.rest
  cases hc : c.rest with
  | nil =>
    rw [hc] at hr
    rw [hr.eq_nil]
  | cons x v =>
    cases hd : d.rest with
    | nil =>
      rw [hc, hd] at hr
      cases hr.symm.eq_nil
    | cons y w => rfl

theorem Along.advance {v w r r' : Text} (h : Along L t u c d) (hc : c.rest = v ++ r) (hd : d.rest = w ++ r')
    (hr : L.Respells r r') : Along L t u (c.advance v.length) (d.advance w.length) := by
  refine ⟨h.texts, ?_, h.left.advance _, h.right.advance _⟩
  rwa [(spans_advance hc).2, (spans_advance hd).2]

theorem Along.skipBlanks (h : Along L t u c d) : Along L t u c.skipBlanks d.skipBlanks := by
  refine ⟨h.texts, ?_, h.left.advance _, h.right.advance _⟩
  rw [rest_skipBlanks, rest_skipBlanks]
  exact h.rest.trimStart

theorem Along.toEnd (h : Along L t u c d) : Along L t u c.toEnd d.toEnd := by
  refine ⟨h.texts, ?_, h.left.advance _, h.right.advance _⟩
  rw [rest_toEnd, rest_toEnd]
  exact .nil

theorem Along.takeRun {p : Char → Bool} (hp : Caseless p) (h : Along L t u c d) :
    List.Forall₂ L.letter (c.takeRun p).1 (d.takeRun p).1 ∧ Along L t u (c.takeRun p).2 (d.takeRun p).2 := by
  obtain ⟨hrun, hrest⟩ := h.rest.run hp
  exact ⟨hrun, h.advance List.takeWhile_append_dropWhile.symm List.takeWhile_append_dropWhile.symm hrest⟩

/-- After blanks comes the same letter, or nothing. -/
theorem Along.next_skipBlanks (h : Along L t u c d) : (c.skipBlanks.rest = [] ∧ d.skipBlanks.rest = []) ∨
    ∃ x y v w, c.skipBlanks.rest = x :: v ∧ d.skipBlanks.rest = y :: w ∧ isBlank x = false ∧ L.letter x y ∧
      L.Respells v w := by
  have hr := h.skipBlanks.rest
  cases hc : c.skipBlanks.rest with
  | nil =>
    rw [hc] at hr
    exact Or.inl ⟨rfl, hr.eq_nil⟩
  | cons x v =>
    have hb : isBlank x = false := next?_skipBlanks (c := c) (by rw [Cursor.next?, hc]; rfl)
    rw [hc] at hr
    obtain ⟨y, w, hd, hl, hr⟩ := hr.uncons hb
    exact Or.inr ⟨x, y, v, w, rfl, hd, hb, hl, hr⟩

theorem Along.eatAny? {α : Type} {choose? : Char → Option α} (hch : ∀ x y, L.letter x y → choose? x = choose? y)
    (h : Along L t u c d) :
    Option.Rel (fun p q => p.1 = q.1 ∧ Along L t u p.2 q.2) (c.eatAny? choose?) (d.eatAny? choose?) := by
  simp only [Cursor.eatAny?, Cursor.next?, Option.bind_eq_bind]
  rcases h.next_skipBlanks with ⟨hc, hd⟩ | ⟨x, y, v, w, hc, hd, _, hl, hr⟩
  · rw [hc, hd]
    exact .none
  · rw [hc, hd]
    simp only [List.head?_cons, Option.bind_some, hch x y hl]
    cases choose? y with
    | none => exact .none
    | some a => exact .some ⟨rfl, h.skipBlanks.advance (v := [x]) (w := [y]) hc hd hr⟩

theorem Along.eat? (h : Along L t u c d) (symbol : Char) (ha : symbol.isAlpha = false) :
    Option.Rel (Along L t u) (c.eat? symbol) (d.eat? symbol) := by
  have hch : ∀ x y, L.letter x y → (if x = symbol then some () else none) = if y = symbol then some () else none := by
    intro x y hl
    by_cases hx : x = symbol
    · subst hx
      rw [eq_of_symbol hl ha]
    · have hy : y ≠ symbol := by
        rintro rfl
        exact hx (eq_of_symbol (L.symm hl) ha)
      rw [if_neg hx, if_neg hy]
  have hrel := h.eatAny? hch
  unfold Cursor.eat?
  generalize c.eatAny? _ = p at hrel ⊢
  generalize d.eatAny? _ = q at hrel ⊢
  cases hrel with
  | none => exact .none
  | some h => exact .some h.2

theorem Along.eatOperator? (ops : List Operator) (h : Along L t u c d) :
    Option.Rel (fun p q => p.1 = q.1 ∧ Along L t u p.2 q.2) (Expression.eatOperator? ops c)
      (Expression.eatOperator? ops d) := by
  refine h.eatAny? fun x y hl => ?_
  have hsymbol : ∀ op : Operator, op.symbol.isAlpha = false := by intro op; cases op <;> rfl
  refine congrArg (fun p => ops.find? p) (funext fun op => decide_eq_decide.mpr ⟨fun hx => ?_, fun hy => ?_⟩)
  · exact (eq_of_symbol (hx ▸ hl) (hsymbol op)).symm
  · exact (eq_of_symbol (L.symm (hy ▸ hl)) (hsymbol op)).symm

end Cursor

/-! ## (2) Faults and expressions -/

/-- In a part of `t`, the blank `x` stands at `p`, right after `0x`. -/
def BlankAfterPrefix (t : Text) (x : Char) (p : Nat) : Prop :=
  isBlank x = true ∧ ∃ before marker after, before ++ '0' :: marker :: x :: after <:+: t ∧ (marker = 'x' ∨ marker = 'X') ∧
    p = before.length + 2

theorem BlankAfterPrefix.mono {t' : Text} {x : Char} {p : Nat} (h : BlankAfterPrefix t x p) (ht : t <:+: t') :
    BlankAfterPrefix t' x p := by
  obtain ⟨hx, before, marker, after, hi, hm, hp⟩ := h
  exact ⟨hx, before, marker, after, hi.trans ht, hm, hp⟩

/-- The same fault in two spellings. -/
inductive SyntaxError.Respelled (L : Respelling) (t u : Text) : SyntaxError → SyntaxError → Prop
  | empty : Respelled L t u .empty .empty
  | unexpectedCharacter {x y : Char} {p q : Nat} : L.letter x y → L.Place p q →
      Respelled L t u (.unexpectedCharacter x p) (.unexpectedCharacter y q)
  | blank {x y : Char} {p q : Nat} : L.gaps → BlankAfterPrefix t x p → BlankAfterPrefix u y q →
      Respelled L t u (.unexpectedCharacter x p) (.unexpectedCharacter y q)
  | unexpectedEnd : Respelled L t u .unexpectedEnd .unexpectedEnd
  | unbalancedParenthesis {p q : Nat} : L.Place p q →
      Respelled L t u (.unbalancedParenthesis p) (.unbalancedParenthesis q)
  | unknownFunction {v w : Text} : List.Forall₂ L.letter v w → Respelled L t u (.unknownFunction v) (.unknownFunction w)
  | invalidNumber {v w : Text} : List.Forall₂ L.letter v w → Respelled L t u (.invalidNumber v) (.invalidNumber w)
  | tooManySlashes : Respelled L t u .tooManySlashes .tooManySlashes
  | nestedTooDeeply {p q : Nat} : L.Place p q → Respelled L t u (.nestedTooDeeply p) (.nestedTooDeeply q)

/-- The same expression in two spellings. -/
inductive Expression.Respelled (L : Respelling) (t u : Text) : Expression → Expression → Prop
  | number (x : Binary64) : Respelled L t u (.number x) (.number x)
  | constant {k : Constant} {p q : Nat} : L.Place p q → (L.gaps → k ≠ .random) →
      Respelled L t u (.constant k p) (.constant k q)
  | call {e e' : Expression} (f : Function) : Respelled L t u e e' → Respelled L t u (.call f e) (.call f e')
  | negation {e e' : Expression} : Respelled L t u e e' → Respelled L t u (.negation e) (.negation e')
  | factorial {e e' : Expression} : Respelled L t u e e' → Respelled L t u (.factorial e) (.factorial e')
  | binary {e₁ e₂ e₁' e₂' : Expression} (op : Operator) : Respelled L t u e₁ e₁' → Respelled L t u e₂ e₂' →
      Respelled L t u (.binary op e₁ e₂) (.binary op e₁' e₂')
  | fault {f f' : SyntaxError} : f.Respelled L t u f' → Respelled L t u (.fault f) (.fault f')
  | faultAfter {e e' : Expression} {f f' : SyntaxError} : Respelled L t u e e' → f.Respelled L t u f' →
      Respelled L t u (.faultAfter e f) (.faultAfter e' f')

namespace Expression

variable {L : Respelling} {t u : Text} {c d : Cursor}

/-- The same has been read of two spellings. -/
def ReadAlike (L : Respelling) (t u : Text) (r r' : Expression × Cursor) : Prop :=
  r.1.Respelled L t u r'.1 ∧ Along L t u r.2 r'.2

def ReadersAgree (L : Respelling) (t u : Text) (f f' : Reader) : Prop :=
  ∀ {c d : Cursor}, Along L t u c d → ReadAlike L t u (f c) (f' d)

theorem unexpected_respelled (h : Along L t u c d) :
    c.skipBlanks.unexpected.Respelled L t u d.skipBlanks.unexpected := by
  simp only [Cursor.unexpected, Cursor.next?]
  rcases h.next_skipBlanks with ⟨hc, hd⟩ | ⟨x, y, v, w, hc, hd, _, hl, _⟩
  · rw [hc, hd]
    exact .unexpectedEnd
  · rw [hc, hd]
    exact .unexpectedCharacter hl h.skipBlanks.place

theorem breakOff_respelled {f f' : SyntaxError} (hf : f.Respelled L t u f') (h : Along L t u c d) :
    ReadAlike L t u (breakOff f c) (breakOff f' d) :=
  ⟨.fault hf, h.toEnd⟩

/-- Both take the same branch. -/
theorem ReadAlike.ite {b b' : Bool} {r₁ r₂ r₁' r₂' : Expression × Cursor} (hb : b = b')
    (h₁ : b = true → ReadAlike L t u r₁ r₁') (h₂ : b = false → ReadAlike L t u r₂ r₂') :
    ReadAlike L t u (if b then r₁ else r₂) (if b' then r₁' else r₂') := by
  subst hb
  cases b with
  | true => exact h₁ rfl
  | false => exact h₂ rfl

/-! ## (3) Literals -/

theorem lower_eq {v w : Text} (h : List.Forall₂ L.letter v w) : v.lower = w.lower := by
  induction h with
  | nil => rfl
  | cons hl _ ih => exact congrArg₂ List.cons (L.toLower_eq hl) ih

/-- The prefix of a hexadecimal literal is respelled as one. -/
theorem exists_of_isHexadecimal {v w : Text} (h : L.Respells v w) (hv : isHexadecimal v = true) :
    ∃ m m' r r', v = '0' :: m :: r ∧ w = '0' :: m' :: r' ∧ (m = 'x' ∨ m = 'X') ∧ (m' = 'x' ∨ m' = 'X') ∧
      L.Respells r r' := by
  unfold isHexadecimal at hv
  split at hv
  · rename_i m r
    have hm : m = 'x' ∨ m = 'X' := by simpa using hv
    have hb : isBlank m = false := by rcases hm with rfl | rfl <;> rfl
    obtain ⟨z, w, rfl, hz, hw⟩ := h.uncons rfl
    obtain ⟨m', r', rfl, hl, hr⟩ := hw.uncons hb
    have hmarker : (m == 'x' || m == 'X') = (m' == 'x' || m' == 'X') :=
      of_toLower_eq (f := fun x => x == 'x' || x == 'X') (by decide) (L.toLower_eq hl)
    rw [hv] at hmarker
    exact ⟨m, m', r, r', rfl, by rw [eq_of_symbol hz rfl], hm, by simpa using hmarker.symm, hr⟩
  · cases hv

theorem isHexadecimal_eq {v w : Text} (h : L.Respells v w) : isHexadecimal v = isHexadecimal w := by
  have forth {v w : Text} (h : L.Respells v w) (hv : isHexadecimal v = true) : isHexadecimal w = true := by
    obtain ⟨_, m', _, r', _, rfl, _, hm', _⟩ := exists_of_isHexadecimal h hv
    rcases hm' with rfl | rfl <;> rfl
  exact Bool.eq_iff_iff.mpr ⟨forth h, forth h.symm⟩

/-- Digits and points. -/
theorem caseless_digitOrPoint : Caseless fun x => x.isDigit || x == '.' := by
  refine ⟨of_toLower_eq (f := fun x => x.isDigit || x == '.') (by decide), fun {x} hx => ?_⟩
  rcases (Bool.or_eq_true _ _).mp hx with hx | hx
  · exact isBlank_of_isDigit hx
  · rw [eq_of_beq hx]
    rfl

theorem caseless_isExponentMarker : Caseless isExponentMarker :=
  ⟨of_toLower_eq (by decide), fun hx => isBlank_of_startsFactor (isExponentMarker_startsFactor hx)⟩

theorem caseless_sign : Caseless fun x => x == '+' || x == '-' := by
  refine ⟨of_toLower_eq (f := fun x => x == '+' || x == '-') (by decide), fun {x} hx => ?_⟩
  rcases (Bool.or_eq_true _ _).mp hx with hx | hx <;> rw [eq_of_beq hx] <;> rfl

theorem startsWithDigit_eq {v w : Text} (h : L.Respells v w) : startsWithDigit v = startsWithDigit w :=
  h.any_head? caseless_isDigit

/-- A character of a class, and then a text of a kind. -/
def startsWith (p : Char → Bool) (f : Text → Bool) : Text → Bool
  | [] => false
  | x :: t => p x && f t

theorem startsWith_eq {p : Char → Bool} (hp : Caseless p) {f : Text → Bool} (hf : ∀ {v w}, L.Respells v w → f v = f w)
    {v w : Text} (h : L.Respells v w) : startsWith p f v = startsWith p f w := by
  cases v with
  | nil => rw [h.eq_nil]
  | cons x v =>
    cases w with
    | nil => cases h.symm.eq_nil
    | cons y w =>
      have hxy : p x = p y := h.any_head? hp
      simp only [startsWith, ← hxy]
      cases hx : p x with
      | false => rfl
      | true =>
        obtain ⟨_, _, hw, _, hr⟩ := h.uncons (hp.solid hx)
        cases hw
        rw [hf hr]

/-- The first character belongs to the decimal literal there by itself, or as a marker before a digit. -/
def startsLexeme (t : Text) : Bool :=
  startsWith (fun x => x.isDigit || x == '.') (fun _ => true) t || startsWith isExponentMarker startsWithDigit t

/-- A marker, a sign and a digit come first. -/
def startsSignedExponent : Text → Bool :=
  startsWith isExponentMarker (startsWith (fun x => x == '+' || x == '-') startsWithDigit)

theorem startsLexeme_eq {v w : Text} (h : L.Respells v w) : startsLexeme v = startsLexeme w := by
  rw [startsLexeme, startsWith_eq caseless_digitOrPoint (fun _ => rfl) h,
    startsWith_eq caseless_isExponentMarker startsWithDigit_eq h, startsLexeme]

theorem startsSignedExponent_eq {v w : Text} (h : L.Respells v w) : startsSignedExponent v = startsSignedExponent w :=
  startsWith_eq caseless_isExponentMarker (startsWith_eq caseless_sign startsWithDigit_eq) h

theorem decimalLexeme_cons {x : Char} {v : Text} (h : startsLexeme (x :: v) = true) :
    decimalLexeme (x :: v) = x :: decimalLexeme v := by
  rw [decimalLexeme.eq_def]
  simp only [startsLexeme, startsWith, Bool.and_true] at h
  by_cases hx : (x.isDigit || x == '.') = true
  · simp only [hx, if_true]
  · rw [Bool.not_eq_true] at hx
    rw [hx, Bool.false_or, Bool.and_eq_true] at h
    obtain ⟨y, u, rfl⟩ : ∃ y u, v = y :: u := by
      cases v with
      | nil => cases h.2
      | cons y u => exact ⟨y, u, rfl⟩
    have hy : y.isDigit = true := h.2
    simp only [hx, h.1, hy, Bool.false_eq_true, if_false, if_true]

theorem decimalLexeme_signed {x y : Char} {v : Text} (h₁ : startsLexeme (x :: y :: v) = false)
    (h₂ : startsSignedExponent (x :: y :: v) = true) : decimalLexeme (x :: y :: v) = x :: y :: decimalLexeme v := by
  obtain ⟨hx, hv⟩ := (Bool.and_eq_true _ _).mp h₂
  obtain ⟨hd, hy⟩ := Bool.or_eq_false_iff.mp h₁
  simp only [startsWith, Bool.and_true, hx, Bool.true_and] at hd hy hv
  have hy : y.isDigit = false := hy
  rw [decimalLexeme.eq_def]
  simp only [hd, hx, hy, hv, Bool.false_eq_true, if_false, if_true]

theorem decimalLexeme_nil {v : Text} (h₁ : startsLexeme v = false) (h₂ : startsSignedExponent v = false) :
    decimalLexeme v = [] := by
  fun_cases decimalLexeme v with
  | case1 | case3 | case6 | case7 => rfl
  | case2 x t hx => simp [startsLexeme, startsWith, hx] at h₁
  | case4 x hx hm y u hy => simp [startsLexeme, startsWith, startsWithDigit, hm, hy] at h₁
  | case5 x hx hm y u hy hs => simp [startsSignedExponent, startsWith, hm, hs] at h₂

theorem startsLexeme_solid {x : Char} {v : Text} (h : startsLexeme (x :: v) = true) : isBlank x = false := by
  simp only [startsLexeme, startsWith, Bool.and_true] at h
  rcases (Bool.or_eq_true _ _).mp h with h | h
  · exact caseless_digitOrPoint.solid h
  · exact caseless_isExponentMarker.solid ((Bool.and_eq_true _ _).mp h).1

/-- A decimal literal is respelled letter by letter, and so is what comes after it. -/
theorem decimalLexeme_respelled {v w : Text} (h : L.Respells v w) : ∃ after after', v = decimalLexeme v ++ after ∧
    w = decimalLexeme w ++ after' ∧ List.Forall₂ L.letter (decimalLexeme v) (decimalLexeme w) ∧
    L.Respells after after' := by
  induction hn : v.length using Nat.strongRecOn generalizing v w with
  | ind n ih =>
    have h₁ := startsLexeme_eq h
    have h₂ := startsSignedExponent_eq h
    cases hv₁ : startsLexeme v with
    | true =>
      obtain ⟨x, v, rfl⟩ : ∃ x v', v = x :: v' := by
        cases v with
        | nil => cases hv₁
        | cons x v => exact ⟨x, v, rfl⟩
      obtain ⟨y, w, rfl, hl, hr⟩ := h.uncons (startsLexeme_solid hv₁)
      obtain ⟨after, after', hv, hw, hlexeme, hafter⟩ := ih v.length (by simp at hn; omega) hr rfl
      rw [hv₁] at h₁
      rw [decimalLexeme_cons hv₁, decimalLexeme_cons h₁.symm]
      exact ⟨after, after', congrArg (x :: ·) hv, congrArg (y :: ·) hw, .cons hl hlexeme, hafter⟩
    | false =>
    rw [hv₁] at h₁
    cases hv₂ : startsSignedExponent v with
    | true =>
      obtain ⟨x, y, v, rfl⟩ : ∃ x y v', v = x :: y :: v' := by
        match v with
        | [] => cases hv₂
        | [x] => simp [startsSignedExponent, startsWith] at hv₂
        | x :: y :: v => exact ⟨x, y, v, rfl⟩
      obtain ⟨hm, hs⟩ := (Bool.and_eq_true _ _).mp hv₂
      obtain ⟨x', w, rfl, hl, hr⟩ := h.uncons (caseless_isExponentMarker.solid hm)
      obtain ⟨y', w, rfl, hl', hr'⟩ := hr.uncons (caseless_sign.solid ((Bool.and_eq_true _ _).mp hs).1)
      obtain ⟨after, after', hv, hw, hlexeme, hafter⟩ := ih v.length (by simp at hn; omega) hr' rfl
      rw [hv₂] at h₂
      rw [decimalLexeme_signed hv₁ hv₂, decimalLexeme_signed h₁.symm h₂.symm]
      exact ⟨after, after', congrArg (x :: y :: ·) hv, congrArg (x' :: y' :: ·) hw, .cons hl (.cons hl' hlexeme), hafter⟩
    | false =>
      rw [hv₂] at h₂
      rw [decimalLexeme_nil hv₁ hv₂, decimalLexeme_nil h₁.symm h₂.symm]
      exact ⟨v, w, rfl, rfl, .nil, h⟩

theorem readDecimal_respelled (h : Along L t u c d) : ReadAlike L t u (readDecimal c) (readDecimal d) := by
  obtain ⟨after, after', hc, hd, hlexeme, hafter⟩ := decimalLexeme_respelled h.rest
  have hend := h.advance hc hd hafter
  have hvalue : Binary64.ofText? (decimalLexeme c.rest) = Binary64.ofText? (decimalLexeme d.rest) := by
    rw [← Binary64.ofText?_lower, lower_eq hlexeme, Binary64.ofText?_lower]
  simp only [readDecimal, hvalue]
  cases Binary64.ofText? (decimalLexeme d.rest) with
  | some x => exact ⟨.number x, hend⟩
  | none => exact ⟨.fault (.invalidNumber hlexeme), hend.toEnd⟩

theorem within_blank {v : Text} {x marker : Char} (h : Within t c) (hc : c.rest = '0' :: marker :: x :: v)
    (hm : marker = 'x' ∨ marker = 'X') (hx : isBlank x = true) : BlankAfterPrefix t x (c.position + 2) := by
  have ht : t.take c.position ++ '0' :: marker :: x :: v = t := by rw [← hc, h.2, List.take_append_drop]
  refine ⟨hx, t.take c.position, marker, v, ?_, hm, by rw [List.length_take, Nat.min_eq_left h.1]⟩
  exact ⟨[], [], by rw [List.nil_append, List.append_nil, ht]⟩

/-- Where digits are missing after `0x`, a blank is reported itself. -/
theorem unexpected_after_marker {m m' : Char} {r r' : Text} (h : Along L t u c d) (hc : c.rest = '0' :: m :: r)
    (hd : d.rest = '0' :: m' :: r') (hm : m = 'x' ∨ m = 'X') (hm' : m' = 'x' ∨ m' = 'X') (hr : L.Respells r r') :
    (c.advance 2).unexpected.Respelled L t u (d.advance 2).unexpected := by
  obtain ⟨hs, hcr⟩ := spans_advance (w := ['0', m]) hc
  obtain ⟨hs', hdr⟩ := spans_advance (w := ['0', m']) hd
  have hplace : L.Place (c.advance 2).position (d.advance 2).position :=
    (h.advance (v := ['0', m]) (w := ['0', m']) hc hd hr).place
  simp only [Cursor.unexpected, Cursor.next?]
  rw [show (c.advance 2).rest = r from hcr, show (d.advance 2).rest = r' from hdr]
  cases hr with
  | nil => exact .unexpectedEnd
  | cons hl _ => exact .unexpectedCharacter hl hplace
  | gap hg hv hbv hw hbw _ =>
    obtain ⟨x, v, rfl⟩ := List.exists_cons_of_ne_nil hv
    obtain ⟨y, w, rfl⟩ := List.exists_cons_of_ne_nil hw
    have hx := within_blank h.left hc hm (hbv x List.mem_cons_self)
    have hy := within_blank h.right hd hm' (hbw y List.mem_cons_self)
    rw [show (c.advance 2).position = c.position + 2 from hs.2, show (d.advance 2).position = d.position + 2 from hs'.2]
    exact .blank hg hx hy

theorem readHexadecimal_respelled (h : Along L t u c d) (hx : isHexadecimal c.rest = true) :
    ReadAlike L t u (readHexadecimal c) (readHexadecimal d) := by
  obtain ⟨m, m', r, r', hc, hd, hm, hm', hr⟩ := exists_of_isHexadecimal h.rest hx
  have hmarker : Along L t u (c.advance 2) (d.advance 2) := h.advance (v := ['0', m]) (w := ['0', m']) hc hd hr
  obtain ⟨hdigits, hend⟩ := hmarker.takeRun caseless_digit
  have hvalue : hexadecimalValue ((c.advance 2).takeRun Digit.isDigit).1 =
      hexadecimalValue ((d.advance 2).takeRun Digit.isDigit).1 := by
    rw [← hexadecimalValue_lower, lower_eq hdigits, hexadecimalValue_lower]
  have hfault := unexpected_after_marker h hc hd hm hm' hr
  simp only [readHexadecimal]
  refine ReadAlike.ite ?_ (fun hempty => ?_) fun _ => ?_
  · have hlen := hdigits.length_eq
    rw [Bool.eq_iff_iff, List.isEmpty_iff_length_eq_zero, List.isEmpty_iff_length_eq_zero, hlen]
  · -- Nothing has been taken after the prefix.
    have empty {e : Cursor} (he : (e.takeRun Digit.isDigit).1 = []) : (e.takeRun Digit.isDigit).2 = e := by
      have hs := spans_takeRun Digit.isDigit e
      rw [he] at hs
      exact hs.unique (spans_refl e)
    have hce := List.isEmpty_iff.mp hempty
    have hde : ((d.advance 2).takeRun Digit.isDigit).1 = [] := by
      rw [hce, List.forall₂_nil_left_iff] at hdigits
      exact hdigits
    rw [empty hce, empty hde]
    exact ⟨.fault hfault, hmarker.toEnd⟩
  · rw [hvalue]
    split
    · exact ⟨.number _, hend⟩
    · exact ⟨.fault (.invalidNumber (.cons L.zero (.cons L.marker hdigits))), hend.toEnd⟩

/-! ## (4) Repetition -/

section Repetition

variable {extend? extend?' : Expression → Cursor → Option (Expression × Cursor)}

/-- Extensions that agree are repeated alike. -/
theorem extendWhile_respelled (hs : Shrinks extend?) (hs' : Shrinks extend?')
    (hstep : ∀ {e e' c d}, e.Respelled L t u e' → Along L t u c d →
      Option.Rel (ReadAlike L t u) (extend? e c) (extend?' e' d)) {e e' : Expression} (he : e.Respelled L t u e')
    (h : Along L t u c d) : ReadAlike L t u (extendWhile extend? t.length e c) (extendWhile extend?' u.length e' d) := by
  induction hn : c.rest.length using Nat.strongRecOn generalizing e e' c d with
  | ind n ih =>
    have hrel := hstep he h
    obtain ⟨hlen, hlen'⟩ := h.length_le
    cases hx : extend? e c with
    | none =>
      cases hx' : extend?' e' d with
      | none =>
        rw [extendWhile_none hx, extendWhile_none hx']
        exact ⟨he, h⟩
      | some r' =>
        rw [hx, hx'] at hrel
        cases hrel
    | some r =>
      cases hx' : extend?' e' d with
      | none =>
        rw [hx, hx'] at hrel
        cases hrel
      | some r' =>
        rw [hx, hx'] at hrel
        cases hrel with
        | some hr =>
          have hlt := hs _ _ _ _ hx
          rw [extendWhile_some hs hlen hx, extendWhile_some hs' hlen' hx']
          exact ih _ (by omega) hr.1 hr.2 rfl

variable {f f' : Reader}

theorem link?_respelled (hf : ReadersAgree L t u f f') (ops : List Operator) {e e' : Expression}
    (he : e.Respelled L t u e') (h : Along L t u c d) :
    Option.Rel (ReadAlike L t u) (link? ops f e c) (link? ops f' e' d) := by
  have hrel := h.eatOperator? ops
  unfold link?
  generalize eatOperator? ops c = p at hrel ⊢
  generalize eatOperator? ops d = q at hrel ⊢
  cases hrel with
  | none => exact .none
  | @some p q h =>
    obtain ⟨op, c'⟩ := p
    obtain ⟨op', d'⟩ := q
    obtain ⟨rfl, hplace⟩ := h
    obtain ⟨hr, hend⟩ := hf hplace
    exact .some ⟨.binary _ he hr, hend⟩

theorem adjoin?_respelled (hf : ReadersAgree L t u f f') {e e' : Expression} (he : e.Respelled L t u e')
    (h : Along L t u c d) : Option.Rel (ReadAlike L t u) (adjoin? f e c) (adjoin? f' e' d) := by
  have hnext : c.next?.any startsFactor = d.next?.any startsFactor := h.rest.any_head? caseless_startsFactor
  unfold adjoin?
  rw [hnext]
  split
  · obtain ⟨hr, hend⟩ := hf h
    exact .some ⟨.binary _ he hr, hend⟩
  · exact .none

theorem readersAgree_chain (hm : Moves f) (hm' : Moves f') (hf : ReadersAgree L t u f f') (ops : List Operator) :
    ReadersAgree L t u (chain t.length ops f) (chain u.length ops f') := fun h => by
  obtain ⟨he, hplace⟩ := hf h
  exact extendWhile_respelled (shrinks_link? hm ops) (shrinks_link? hm' ops) (link?_respelled hf ops) he hplace

theorem readersAgree_expression (hm : Moves f) (hm' : Moves f') (hf : ReadersAgree L t u f f') :
    ReadersAgree L t u (expression t.length f) (expression u.length f') :=
  readersAgree_chain (moves_chain hm t.length multiplicative) (moves_chain hm' u.length multiplicative)
    (readersAgree_chain hm hm' hf multiplicative) additive

end Repetition

/-! ## (5) Atoms -/

section Atoms

variable {f f' : Reader}

theorem enclosed_respelled (hm : Moves f) (hm' : Moves f') (hf : ReadersAgree L t u f f') {opened opened' : Nat}
    (ho : L.Place opened opened') (h : Along L t u c d) :
    ReadAlike L t u (enclosed t.length f opened c) (enclosed u.length f' opened' d) := by
  have hr := readersAgree_expression hm hm' hf h
  simp only [enclosed]
  generalize expression t.length f c = r at hr ⊢
  generalize expression u.length f' d = r' at hr ⊢
  obtain ⟨he, hplace⟩ := hr
  have hrel := hplace.eat? ')' rfl
  generalize r.2.eat? ')' = p at hrel ⊢
  generalize r'.2.eat? ')' = q at hrel ⊢
  cases hrel with
  | some hend => exact ⟨he, hend⟩
  | none =>
    refine ⟨.faultAfter he ?_, hplace.skipBlanks.toEnd⟩
    rw [hplace.skipBlanks.isEmpty]
    split
    · exact .unbalancedParenthesis ho
    · exact unexpected_respelled hplace

theorem application_respelled (hf : ReadersAgree L t u f f') (g : Function) (h : Along L t u c d) :
    ReadAlike L t u (application f g c) (application f' g d) := by
  obtain ⟨he, hplace⟩ := hf h
  exact ⟨.call g he, hplace⟩

theorem named_respelled (hf : ReadersAgree L t u f f') (h : Along L t u c d) :
    ReadAlike L t u (named f c) (named f' d) := by
  obtain ⟨hname, hend⟩ := h.takeRun caseless_isAlphabetic
  have hidentifier : Identifier.ofText? (c.takeRun isAlphabetic).1 = Identifier.ofText? (d.takeRun isAlphabetic).1 := by
    rw [← Identifier.ofText?_lower, lower_eq hname, Identifier.ofText?_lower]
  have hpart : (c.takeRun isAlphabetic).1 <:+: t := by
    have hp : (c.takeRun isAlphabetic).1 <+: c.rest := List.takeWhile_prefix _
    rw [h.left.2] at hp
    exact hp.isInfix.trans (List.drop_suffix _ _).isInfix
  simp only [named]
  cases hk : Identifier.ofText? (c.takeRun isAlphabetic).1 with
  | none =>
    rw [← hidentifier, hk]
    exact breakOff_respelled (.unknownFunction hname) hend
  | some identifier =>
    rw [← hidentifier, hk]
    cases identifier with
    | function g => exact application_respelled hf g hend
    | constant k =>
      refine ⟨.constant h.place fun hg he => ?_, hend⟩
      rw [he] at hk
      exact h.texts.randFree hg _ hpart hk

theorem readersAgree_atom (hm : Moves f) (hm' : Moves f') (hf : ReadersAgree L t u f f') :
    ReadersAgree L t u (atom t.length f) (atom u.length f') := fun {c d} h => by
  have hs := h.skipBlanks
  rcases h.next_skipBlanks with ⟨hc, hd⟩ | ⟨x, y, v, w, hc, hd, hb, hl, hr⟩
  · simp only [atom, hc, hd]
    exact breakOff_respelled (unexpected_respelled h) hs
  · have hby : isBlank y = false := by rw [← isBlank_eq hl, hb]
    have hsame := L.toLower_eq hl
    have hnext : Along L t u (c.skipBlanks.advance 1) (d.skipBlanks.advance 1) :=
      hs.advance (v := [x]) (w := [y]) hc hd hr
    have hhex := isHexadecimal_eq hs.rest
    rw [atom_eq (gap_skipBlanks c) hc hb, atom_eq (gap_skipBlanks d) hd hby]
    refine .ite ((caseless_symbol rfl rfl).same hsame) (fun _ => enclosed_respelled hm hm' hf hs.place hnext) fun _ => ?_
    refine .ite hhex (readHexadecimal_respelled hs) fun _ => ?_
    refine .ite (caseless_digitOrPoint.same hsame) (fun _ => readDecimal_respelled hs) fun _ => ?_
    refine .ite ((caseless_symbol rfl rfl).same hsame) (fun _ => application_respelled hf .squareRoot hnext) fun _ => ?_
    refine .ite (caseless_isAlphabetic.same hsame) (fun _ => named_respelled hf hs) fun _ => ?_
    exact breakOff_respelled (unexpected_respelled h) hs

end Atoms

/-! ## (6) Unaries, factors and whole texts -/

/-- Both languages have the mark of the factorial or neither has it, or no text has a spelling of it. -/
def MarksAgree (L : Respelling) (marks marks' : Bool) : Prop := marks = marks' ∨ ∀ x, ¬ L.letter '!' x

theorem not_token_of_letters {symbol : Char} (hb : isBlank symbol = false) (hn : ∀ x, ¬ L.letter symbol x)
    {v : Text} (h : L.Respells c.rest v) (e : Cursor) : ¬ Token symbol c e := by
  rintro ⟨w, _, hs⟩
  rw [hs.1, List.append_assoc] at h
  obtain ⟨_, y, _, _, _, hy, _⟩ := h.cut hb
  exact hn y hy

variable {marks marks' : Bool}

theorem postfixed_respelled (hmarks : MarksAgree L marks marks') {e e' : Expression} (he : e.Respelled L t u e')
    (h : Along L t u c d) : ReadAlike L t u (postfixed marks e c) (postfixed marks' e' d) := by
  rcases hmarks with rfl | hn
  · have hrel := h.eat? '!' rfl
    simp only [postfixed]
    cases marks with
    | false => exact ⟨he, h⟩
    | true =>
      simp only [if_true]
      generalize c.eat? '!' = p at hrel ⊢
      generalize d.eat? '!' = q at hrel ⊢
      cases hrel with
      | none => exact ⟨he, h⟩
      | some hend => exact ⟨.factorial he, hend⟩
  · have hc : postfixed marks e c = (e, c) := postfixed_eq (.none fun _ => not_token_of_letters rfl hn h.rest)
    have hd : postfixed marks' e' d = (e', d) := postfixed_eq (.none fun _ => not_token_of_letters rfl hn h.rest.symm)
    rw [hc, hd]
    exact ⟨he, h⟩

section Deeper

variable {n : Nat} (hu : ReadersAgree L t u (unary marks t.length n) (unary marks' u.length n))
  (hf : ReadersAgree L t u (factor marks t.length n) (factor marks' u.length n))

include hu hf

theorem readersAgree_unary : ReadersAgree L t u (unary marks t.length (n + 1)) (unary marks' u.length (n + 1)) := by
  intro c d h
  have hm := moves_factor marks t.length n
  have hm' := moves_factor marks' u.length n
  simp only [unary]
  have hplus := h.eat? '+' rfl
  generalize c.eat? '+' = p at hplus ⊢
  generalize d.eat? '+' = q at hplus ⊢
  cases hplus with
  | some hend => exact hu hend
  | none =>
  have hminus := h.eat? '-' rfl
  generalize c.eat? '-' = p at hminus ⊢
  generalize d.eat? '-' = q at hminus ⊢
  cases hminus with
  | some hend =>
    obtain ⟨he, hplace⟩ := hu hend
    exact ⟨.negation he, hplace⟩
  | none =>
  have hatom := readersAgree_atom hm hm' hf h
  generalize atom t.length (factor marks t.length n) c = r at hatom ⊢
  generalize atom u.length (factor marks' u.length n) d = r' at hatom ⊢
  obtain ⟨he, hplace⟩ := hatom
  have hpower := hplace.eat? '^' rfl
  dsimp only
  generalize r.2.eat? '^' = p at hpower ⊢
  generalize r'.2.eat? '^' = q at hpower ⊢
  cases hpower with
  | none => exact ⟨he, hplace⟩
  | some hend =>
    obtain ⟨he', hplace'⟩ := hf hend
    exact ⟨.binary .power he he', hplace'⟩

theorem readersAgree_factor (hmarks : MarksAgree L marks marks') :
    ReadersAgree L t u (factor marks t.length (n + 1)) (factor marks' u.length (n + 1)) := by
  intro c d h
  obtain ⟨he, hplace⟩ := hu h
  obtain ⟨he', hplace'⟩ := postfixed_respelled hmarks he hplace
  have hm := moves_factor marks t.length n
  have hm' := moves_factor marks' u.length n
  simp only [factor]
  exact extendWhile_respelled (shrinks_adjoin? hm) (shrinks_adjoin? hm') (adjoin?_respelled hf) he' hplace'

end Deeper

theorem readersAgree_unary_factor (hmarks : MarksAgree L marks marks') (n : Nat) :
    ReadersAgree L t u (unary marks t.length n) (unary marks' u.length n) ∧
      ReadersAgree L t u (factor marks t.length n) (factor marks' u.length n) := by
  induction n with
  | zero =>
    have broken : ReadersAgree L t u (fun c => breakOff (.nestedTooDeeply c.position) c)
        (fun c => breakOff (.nestedTooDeeply c.position) c) := fun h => breakOff_respelled (.nestedTooDeeply h.place) h
    exact ⟨broken, broken⟩
  | succ n ih =>
    obtain ⟨hu, hf⟩ := ih
    exact ⟨readersAgree_unary hu hf, readersAgree_factor hu hf hmarks⟩

/-- Two spellings of a text are read alike. -/
theorem read_respelled (hmarks : MarksAgree L marks marks') (h : L.Texts t u) :
    (read marks t).Respelled L t u (read marks' u) := by
  have hs := (along_start h).skipBlanks
  have hf : ReadersAgree L t u (factor marks t.length depthLimit) (factor marks' u.length depthLimit) :=
    (readersAgree_unary_factor hmarks depthLimit).2
  have hr := readersAgree_expression (moves_factor marks t.length depthLimit) (moves_factor marks' u.length depthLimit) hf hs
  simp only [read, hs.isEmpty]
  split
  · exact .fault .empty
  generalize expression t.length _ _ = r at hr ⊢
  generalize expression u.length _ _ = r' at hr ⊢
  obtain ⟨he, hplace⟩ := hr
  rw [hplace.skipBlanks.isEmpty]
  split
  · exact he
  · exact .faultAfter he (unexpected_respelled hplace)

end Expression

end Positional
