/-
  Positional.Proofs.Expression.Context — derivations inside a longer text.

  What is derived from a text is derived from a longer one that has it in the middle, as long as
  the first character after it, blanks left out, is a `)` or a `/` (`Closing`): these neither
  extend a literal or a name nor continue what stands before them (`Derives.embed`). Only the places
  of its constants change (`shifted`). What stands to the left of a continuation may be another
  expression (`Derives.alike`).

  So texts that have derivations are put together into one that has:

  - blanks may be put around a text (`Derivation.surrounded`);
  - two texts with a slash between them are an expression (`Derivation.quotient`), at no greater depth,
    since the slash takes only the last factor before it and the first one after it;
  - a text in parentheses is an expression with two more parts open (`Derives.enclosed`).
-/
import Positional.Proofs.Expression.Movement
import Positional.Proofs.Expression.Derivation

namespace Positional

open Cursor

/-- What may come after an expression without being taken into it. -/
def Closing (w : Text) : Prop := ∀ x, (w.dropWhile isBlank).head? = some x → x = ')' ∨ x = '/'

theorem closing_of_blank {w : Text} (h : Blank w) : Closing w := by
  intro x hx
  rw [Text.dropWhile_blank h] at hx
  cases hx

theorem closing_cons {x : Char} (h : x = ')' ∨ x = '/') (w : Text) : Closing (x :: w) := by
  have hb : isBlank x = false := by rcases h with rfl | rfl <;> rfl
  intro y hy
  rw [List.dropWhile_cons_of_neg (by simpa using hb)] at hy
  cases hy
  exact h

/-- The first character starts no factor and is no sign, so a literal or a name ends before it. -/
def Apart (w : Text) : Prop := ∀ x, w.head? = some x → Expression.startsFactor x = false ∧ x ≠ '+' ∧ x ≠ '-'

theorem apart_of_isBlank {x : Char} (h : isBlank x = true) (w : Text) : Apart (x :: w) := by
  intro y hy
  cases hy
  refine ⟨?_, ?_, ?_⟩
  · cases hs : Expression.startsFactor x with
    | false => rfl
    | true => rw [isBlank_of_startsFactor hs] at h; cases h
  · intro e
    subst e
    cases h
  · intro e
    subst e
    cases h

theorem Closing.apart {w : Text} (h : Closing w) : Apart w := by
  intro x hx
  obtain ⟨v, rfl⟩ := List.head?_eq_some_iff.mp hx
  by_cases hb : isBlank x = true
  · exact apart_of_isBlank hb v x rfl
  · rw [Closing, List.dropWhile_cons_of_neg hb] at h
    rcases h x rfl with rfl | rfl
    · exact ⟨by decide +kernel, by decide, by decide⟩
    · exact ⟨by decide +kernel, by decide, by decide⟩

/-- The same part of the grammar; what stands to the left may be another expression. -/
inductive Part.Alike : Part → Part → Prop
  | leads {part : Part} : part.Leads → Alike part part
  | further (tier : Tier) (left left' : Expression) : Alike (.further tier left) (.further tier left')
  | products (left left' : Expression) : Alike (.products left) (.products left')

/-- The same expression, read with `k` characters more before it. It has no fault, so no other place is told. -/
def Expression.shifted (k : Nat) : Expression → Expression
  | number x => number x
  | constant c position => constant c (k + position)
  | call f argument => call f (argument.shifted k)
  | negation operand => negation (operand.shifted k)
  | factorial operand => factorial (operand.shifted k)
  | binary op left right => binary op (left.shifted k) (right.shifted k)
  | fault error => fault error
  | faultAfter complete error => faultAfter (complete.shifted k) error

def Part.shifted (k : Nat) : Part → Part
  | further tier left => further tier (left.shifted k)
  | products left => products (left.shifted k)
  | part => part

theorem Part.shifted_operand (k : Nat) (tier : Tier) : tier.operand.shifted k = tier.operand := by
  cases tier <;> rfl

namespace Cursor

/-! ## (1) Places in a longer text -/

/-- The same place in a text with `k` characters more before it and `w` at the end. -/
def embed (k : Nat) (w : Text) (c : Cursor) : Cursor := ⟨c.rest ++ w, k + c.position⟩

variable {k : Nat} {w : Text}

theorem spans_embed {c d : Cursor} {v : Text} (h : Spans c v d) : Spans (c.embed k w) v (d.embed k w) := by
  refine ⟨?_, ?_⟩
  · show c.rest ++ w = v ++ (d.rest ++ w)
    rw [h.1, List.append_assoc]
  · show k + d.position = k + c.position + v.length
    rw [h.2, Nat.add_assoc]

theorem gap_embed {c d : Cursor} (h : Gap c d) : Gap (c.embed k w) (d.embed k w) := by
  obtain ⟨v, hv, hs⟩ := h
  exact ⟨v, hv, spans_embed hs⟩

theorem token_embed {x : Char} {c d : Cursor} (h : Token x c d) : Token x (c.embed k w) (d.embed k w) := by
  obtain ⟨v, hv, hs⟩ := h
  exact ⟨v, hv, spans_embed hs⟩

theorem next?_embed (c : Cursor) : (c.embed k w).next? = c.next?.or w.head? := List.head?_append

theorem next?_embed_some {c : Cursor} {x : Char} (h : c.next? = some x) : (c.embed k w).next? = some x := by
  rw [next?_embed, h]
  rfl

theorem next?_skipBlanks_embed (c : Cursor) :
    (c.embed k w).skipBlanks.next? = c.skipBlanks.next?.or (w.dropWhile isBlank).head? := by
  simp only [Cursor.next?, rest_skipBlanks]
  show ((c.rest ++ w).dropWhile isBlank).head? = _
  rw [List.dropWhile_append]
  split
  · rename_i he
    rw [List.isEmpty_iff.mp he]
    rfl
  · rename_i he
    have hs : (c.rest.dropWhile isBlank).head?.isSome = true := by simpa using he
    rw [List.head?_append, Option.or_of_isSome hs, Option.or_of_isSome hs]

/-- No symbol comes next that did not before, but for the first one of `w`. -/
theorem not_token_embed (hw : Closing w) {x : Char} (hb : isBlank x = false) (hx : ¬ (x = ')' ∨ x = '/'))
    {c : Cursor} (h : ∀ d, ¬ Token x c d) (d : Cursor) : ¬ Token x (c.embed k w) d := by
  intro ht
  have hn := ((token_iff hb).mp ht).1
  rw [next?_skipBlanks_embed] at hn
  cases hc : c.skipBlanks.next? with
  | some y =>
    rw [hc] at hn
    cases hn
    exact h _ ((token_iff hb).mpr ⟨hc, rfl⟩)
  | none =>
    rw [hc] at hn
    exact hx (hw x hn)

theorem not_startsFactor_embed (hw : Closing w) {c : Cursor}
    (h : ∀ x, c.next? = some x → Expression.startsFactor x = false) (x : Char) (hx : (c.embed k w).next? = some x) :
    Expression.startsFactor x = false := by
  rw [next?_embed] at hx
  cases hc : c.next? with
  | some y =>
    rw [hc] at hx
    cases hx
    exact h _ hc
  | none =>
    rw [hc] at hx
    exact (hw.apart x hx).1

/-- A run ends where it did: its class is one of those that start a factor. -/
theorem run_embed (hw : Closing w) {p : Char → Bool} (hp : ∀ {x}, p x = true → Expression.startsFactor x = true)
    {c d : Cursor} {v : Text} (h : Run p c v d) : Run p (c.embed k w) v (d.embed k w) := by
  obtain ⟨hs, hn, hv, hd⟩ := h
  refine ⟨spans_embed hs, hn, hv, fun x hx => ?_⟩
  rw [next?_embed] at hx
  cases hc : d.next? with
  | some y =>
    rw [hc] at hx
    cases hx
    exact hd _ hc
  | none =>
    rw [hc] at hx
    cases hpx : p x with
    | false => rfl
    | true =>
      have := hp hpx
      rw [(hw.apart x hx).1] at this
      cases this

end Cursor

namespace Expression

theorem isExponentMarker_startsFactor {x : Char} (h : isExponentMarker x = true) : startsFactor x = true := by
  simp only [isExponentMarker, Bool.or_eq_true, beq_iff_eq] at h
  rcases h with rfl | rfl <;> decide +kernel

theorem startsFactor_of_isDigit {x : Char} (h : (x.isDigit || x == '.') = true) : startsFactor x = true := by
  simp only [Bool.or_eq_true] at h
  rcases h with h | h <;> simp [startsFactor, h]

variable {w : Text}

theorem decimalLexeme_apart (hw : Apart w) : decimalLexeme w = [] := by
  cases w with
  | nil => rfl
  | cons x w =>
    obtain ⟨hx, _, _⟩ := hw x rfl
    have hd : (x.isDigit || x == '.') = false := by
      rw [← Bool.not_eq_true]
      intro h
      rw [startsFactor_of_isDigit h] at hx
      cases hx
    have hm : isExponentMarker x = false := by
      rw [← Bool.not_eq_true]
      intro h
      rw [isExponentMarker_startsFactor h] at hx
      cases hx
    rw [decimalLexeme.eq_def]
    simp [hd, hm]

theorem startsWithDigit_append (hw : Apart w) (t : Text) : startsWithDigit (t ++ w) = startsWithDigit t := by
  cases t with
  | cons x t => rfl
  | nil =>
    cases w with
    | nil => rfl
    | cons x w =>
      have hx := (hw x rfl).1
      simp only [startsFactor, Bool.or_eq_false_iff] at hx
      simp [startsWithDigit, hx.1.1.1.1]

/-- What stands apart after it does not make a decimal literal longer. -/
theorem decimalLexeme_append_apart (hw : Apart w) (t : Text) : decimalLexeme (t ++ w) = decimalLexeme t := by
  fun_induction decimalLexeme t with
  | case1 => exact decimalLexeme_apart hw
  | case2 x t h ih =>
    rw [List.cons_append, decimalLexeme.eq_def]
    simp only [h, if_true, ih]
  | case3 x h hm =>
    cases w with
    | nil => simp [decimalLexeme, h, hm]
    | cons y u =>
      obtain ⟨hy, hplus, hminus⟩ := hw y rfl
      simp only [startsFactor, Bool.or_eq_false_iff] at hy
      rw [List.cons_append, List.nil_append, decimalLexeme, if_neg h, if_pos hm]
      simp [hy.1.1.1.1, hplus, hminus]
  | case4 x h hm y u hy ih =>
    rw [List.cons_append, List.cons_append, decimalLexeme, if_neg h, if_pos hm]
    simp only [hy, if_true]
    rw [← List.cons_append, ih]
  | case5 x h hm y u hy hs ih =>
    rw [List.cons_append, List.cons_append, decimalLexeme, if_neg h, if_pos hm]
    rw [← startsWithDigit_append hw] at hs
    simp only [hy, hs, Bool.false_eq_true, if_false, if_true, ih]
  | case6 x h hm y u hy hs =>
    rw [List.cons_append, List.cons_append, decimalLexeme, if_neg h, if_pos hm]
    rw [← startsWithDigit_append hw] at hs
    simp only [hy, hs, Bool.false_eq_true, if_false]
  | case7 x t h hm =>
    rw [List.cons_append, decimalLexeme.eq_def]
    simp [h, hm]

theorem isHexadecimal_append_apart (hw : Apart w) {t : Text} (hn : t ≠ []) :
    isHexadecimal (t ++ w) = isHexadecimal t := by
  obtain ⟨x, u, rfl⟩ := List.exists_cons_of_ne_nil hn
  cases u with
  | cons y u =>
    rw [List.cons_append, List.cons_append]
    unfold isHexadecimal
    split <;> simp_all
  | nil =>
    have hx : isHexadecimal [x] = false := by
      unfold isHexadecimal
      split <;> simp_all
    rw [hx, ← Bool.not_eq_true]
    intro h
    unfold isHexadecimal at h
    split at h
    · rename_i marker v he
      have he' : w = marker :: v := (List.cons.inj he).2
      have hm := (hw marker (by rw [he']; rfl)).1
      simp only [Bool.or_eq_true, beq_iff_eq] at h
      rcases h with rfl | rfl
      · exact absurd hm (by decide +kernel)
      · exact absurd hm (by decide +kernel)
    · cases h

/-! ## (2) Derivations in a longer text -/

variable {factorial : Bool} {k : Nat}

theorem startsDecimal_embed (hw : Closing w) {c : Cursor} (h : StartsDecimal c) : StartsDecimal (c.embed k w) := by
  obtain ⟨⟨x, hx, hd⟩, hh⟩ := h
  have hn : c.rest ≠ [] := by
    intro hn
    rw [Cursor.next?, hn] at hx
    cases hx
  exact ⟨⟨x, next?_embed_some hx, hd⟩, (isHexadecimal_append_apart hw.apart hn).trans hh⟩

theorem Derives.embed (hw : Closing w) {n : Nat} {part : Part} {c d : Cursor} {e : Expression}
    (h : Derives factorial n part c e d) :
    Derives factorial n (part.shifted k) (c.embed k w) (e.shifted k) (d.embed k w) := by
  have caret {c : Cursor} (h : ∀ d, ¬ Token '^' c d) : ∀ d, ¬ Token '^' (c.embed k w) d :=
    not_token_embed hw rfl (by decide) h
  induction h with
  | chain _ _ ih ih' =>
    rw [Part.shifted_operand] at ih
    exact .chain ih ih'
  | last => exact .last
  | link hm ht _ _ ih ih' =>
    rw [Part.shifted_operand] at ih
    exact .link hm (token_embed ht) ih ih'
  | factor _ hp _ ih ih' =>
    cases hp with
    | mark hf ht => exact .factor ih (.mark hf (token_embed ht)) ih'
    | none hn => exact .factor ih (.none fun hf => not_token_embed hw rfl (by decide) (hn hf)) ih'
  | lastProduct hn => exact .lastProduct (not_startsFactor_embed hw hn)
  | product hx hs _ _ ih ih' => exact .product (next?_embed_some hx) hs ih ih'
  | plus ht _ ih => exact .plus (token_embed ht) ih
  | minus ht _ ih => exact .minus (token_embed ht) ih
  | plain _ hc ih => exact .plain ih (caret hc)
  | power _ ht _ ih ih' => exact .power ih (token_embed ht) ih'
  | @decimal n x c c₁ c₂ hg hs hspan hx =>
    have hl : decimalLexeme (c₁.embed k w).rest = decimalLexeme c₁.rest := decimalLexeme_append_apart hw.apart _
    exact .decimal (gap_embed hg) (startsDecimal_embed hw hs) (by rw [hl]; exact spans_embed hspan)
      (by rw [hl]; exact hx)
  | hexadecimal hg hm hs hr hlt =>
    exact .hexadecimal (gap_embed hg) hm (spans_embed hs) (run_embed hw startsFactor_of_digit hr) hlt
  | parentheses ht _ ht' ih => exact .parentheses (token_embed ht) ih (token_embed ht')
  | constant hg hr hk => exact .constant (gap_embed hg) (run_embed hw startsFactor_of_isAlphabetic hr) hk
  | function hg hr hk _ ih => exact .function (gap_embed hg) (run_embed hw startsFactor_of_isAlphabetic hr) hk ih
  | root ht _ ih => exact .root (token_embed ht) ih

/-- What stands to the left of a continuation does not matter for its text. -/
theorem Derives.alike {n : Nat} {part part' : Part} {c d : Cursor} {e : Expression}
    (h : Derives factorial n part c e d) (ha : part.Alike part') : ∃ e', Derives factorial n part' c e' d := by
  cases ha with
  | leads => exact ⟨e, h⟩
  | further tier left left' =>
    generalize hp : Part.further tier left = part at h
    induction h generalizing left left' with
    | last =>
      cases hp
      exact ⟨left', .last⟩
    | @link n tier op _ right _ _ _ _ _ hm ht h₁ _ _ ih =>
      cases hp
      obtain ⟨e', h₂⟩ := ih _ (.binary op left' right) rfl
      exact ⟨e', .link hm ht h₁ h₂⟩
    | _ => cases hp
  | products left left' =>
    generalize hp : Part.products left = part at h
    induction h generalizing left left' with
    | lastProduct hn =>
      cases hp
      exact ⟨left', .lastProduct hn⟩
    | @product n x _ right _ _ _ _ hx hs h₁ _ _ ih =>
      cases hp
      obtain ⟨e', h₂⟩ := ih _ (.binary .multiply left' right) rfl
      exact ⟨e', .product hx hs h₁ h₂⟩
    | _ => cases hp

/-! ## (3) Putting texts together -/

theorem Derives.further_trans {n : Nat} {tier : Tier} {left e e' : Expression} {c d d' : Cursor}
    (h : Derives factorial n (.further tier left) c e d) (h' : Derives factorial n (.further tier e) d e' d') :
    Derives factorial n (.further tier left) c e' d' := by
  generalize hp : Part.further tier left = part at h
  induction h generalizing left with
  | last =>
    cases hp
    exact h'
  | link hm ht h₁ _ _ ih =>
    cases hp
    exact .link hm ht h₁ (ih h' rfl)
  | _ => cases hp

section Quotient

variable {n : Nat} {c₁ c₂ d : Cursor} {e₁ e₂ : Expression}

/-- After a term and a slash, an expression: its first factor is the divisor. -/
theorem Derives.term_quotient {c : Cursor} (h : Derives factorial n (.chain .term) c e₁ c₁) (ht : Token '/' c₁ c₂)
    (h' : Derives factorial n (.chain .sum) c₂ e₂ d) : ∃ e, Derives factorial n (.chain .sum) c e d := by
  cases h with
  | chain hfirst hrest =>
  cases h' with
  | @chain _ _ term _ _ _ _ hterm hsum =>
  cases hterm with
  | @chain _ _ divisor _ _ _ _ hdivisor hfactors =>
    obtain ⟨e₃, hfactors⟩ := hfactors.alike (.further .term divisor (.binary .divide e₁ divisor))
    obtain ⟨e, hsum⟩ := hsum.alike (.further .sum term e₃)
    have hlink : Derives factorial n (.further .term e₁) c₁ e₃ _ :=
      .link (show Operator.divide ∈ Tier.term.operators by decide) ht hdivisor hfactors
    exact ⟨e, .chain (.chain hfirst (hrest.further_trans hlink)) hsum⟩

/-- The last term before the slash is the one that is divided. -/
theorem Derives.further_quotient {left : Expression} {c : Cursor} (h : Derives factorial n (.further .sum left) c e₁ c₁)
    (ht : Token '/' c₁ c₂) (h' : Derives factorial n (.chain .sum) c₂ e₂ d) :
    c = c₁ ∨ ∃ e, Derives factorial n (.further .sum left) c e d := by
  generalize hp : Part.further .sum left = part at h
  induction h generalizing left with
  | last => exact Or.inl rfl
  | @link n tier op left right e c d₁ d₂ d₃ hm hop hright hrest _ ih =>
    cases hp
    refine Or.inr ?_
    rcases ih ht h' rfl with hd | ⟨e', hrest⟩
    · subst hd
      obtain ⟨e', hsum⟩ := hright.term_quotient ht h'
      cases hsum with
      | @chain _ _ right' _ _ _ _ hterm hsum =>
        obtain ⟨e'', hsum⟩ := hsum.alike (.further .sum right' (.binary op left right'))
        exact ⟨e'', .link hm hop hterm hsum⟩
    · exact ⟨e', .link hm hop hright hrest⟩
  | _ => cases hp

theorem Derives.quotient {c : Cursor} (h : Derives factorial n (.chain .sum) c e₁ c₁) (ht : Token '/' c₁ c₂)
    (h' : Derives factorial n (.chain .sum) c₂ e₂ d) : ∃ e, Derives factorial n (.chain .sum) c e d := by
  cases h with
  | chain hterm hsum =>
    rcases hsum.further_quotient ht h' with hc | ⟨e', hsum⟩
    · subst hc
      exact hterm.term_quotient ht h'
    · exact ⟨e', .chain hterm hsum⟩

end Quotient

/-! ## (4) Whole texts -/

theorem not_token_of_nil {c : Cursor} (h : c.rest = []) (x : Char) (d : Cursor) : ¬ Token x c d := by
  intro ht
  have := ht.length_lt
  rw [h] at this
  exact absurd this (Nat.not_lt_zero _)

theorem Derivation.surrounded {lead t trail : Text} {e : Expression} (h : Derivation factorial t e) (hl : Blank lead)
    (hr : Blank trail) : ∃ e', Derivation factorial (lead ++ t ++ trail) e' := by
  obtain ⟨d, hd, hb⟩ := h
  have hd := hd.embed (k := lead.length) (closing_of_blank hr)
  have hg : Gap (Cursor.start (lead ++ t ++ trail)) ((Cursor.start t).embed lead.length trail) :=
    ⟨lead, hl, List.append_assoc _ _ _, Nat.add_comm _ _⟩
  exact ⟨_, _, hd.after_gap trivial hg, Text.blank_append hb hr⟩

/-- Two expressions with a slash between them are one. -/
theorem Derivation.quotient {t u : Text} {e₁ e₂ : Expression} (h : Derivation factorial t e₁)
    (h' : Derivation factorial u e₂) : ∃ e, Derivation factorial (t ++ '/' :: u) e := by
  obtain ⟨c, hc, hb⟩ := h
  obtain ⟨d, hd, hb'⟩ := h'
  have hlen := hc.ahead.position
  have hc := hc.embed (k := 0) (closing_cons (Or.inr rfl) u)
  have hd := hd.embed (k := t.length + 1) (w := []) (closing_of_blank Text.blank_nil)
  have ht : Token '/' (c.embed 0 ('/' :: u)) ((Cursor.start u).embed (t.length + 1) []) := by
    refine ⟨c.rest, hb, ?_, ?_⟩
    · simp [Cursor.embed, Cursor.start]
    · simp only [Cursor.embed, Cursor.start, List.length_append, List.length_singleton] at hlen ⊢
      omega
  have hs : (Cursor.start t).embed 0 ('/' :: u) = Cursor.start (t ++ '/' :: u) := rfl
  rw [hs] at hc
  obtain ⟨e, he⟩ := hc.quotient ht hd
  exact ⟨e, _, he, by simpa [Cursor.embed] using hb'⟩

/-- In parentheses an expression is an atom, wherever they stand. -/
theorem Derives.parenthesized {n : Nat} {t : Text} {e : Expression} {d : Cursor}
    (h : Derives factorial n (.chain .sum) (Cursor.start t) e d) (hb : Blank d.rest) (k : Nat) (after : Text) :
    Derives factorial n .atom ⟨'(' :: (t ++ ')' :: after), k⟩ (e.shifted (k + 1)) ⟨after, k + t.length + 2⟩ := by
  have hlen := h.ahead.position
  have hd := h.embed (k := k + 1) (closing_cons (Or.inl rfl) after)
  have hopen : Token '(' ⟨'(' :: (t ++ ')' :: after), k⟩ ((Cursor.start t).embed (k + 1) (')' :: after)) :=
    ⟨[], Text.blank_nil, rfl, rfl⟩
  refine .parentheses hopen hd ⟨d.rest, hb, by simp [Cursor.embed], ?_⟩
  simp only [Cursor.embed, Cursor.start, List.length_append, List.length_singleton] at hlen ⊢
  omega

/-- An expression in parentheses is one, with two parts more open around it. -/
theorem Derives.enclosed {n : Nat} {t : Text} {e : Expression} {d : Cursor}
    (h : Derives factorial n (.chain .sum) (Cursor.start t) e d) (hb : Blank d.rest) :
    ∃ e' d', Derives factorial (n + 2) (.chain .sum) (Cursor.start ('(' :: (t ++ [')']))) e' d' ∧ Blank d'.rest := by
  have hunary := Derives.plain (h.parenthesized hb 0 []) (not_token_of_nil rfl '^')
  have hfactor := Derives.factor hunary (.none fun _ => not_token_of_nil rfl '!') (.lastProduct fun _ hx => nomatch hx)
  have hterm : Derives factorial (n + 2) (.chain .term) _ _ _ := .chain hfactor .last
  exact ⟨_, _, .chain hterm .last, Text.blank_nil⟩

end Expression

end Positional
