/-
  Positional.Proofs.Expression.Movement — readers move forward.

  A reader of expressions never goes back, and where characters are left it takes at least one
  (`Passes`). This holds of the readers of all parts, whatever the limit on the depth
  (`moves_factor`, `moves_unary`, `moves_atom`, `moves_expression`), and it is why the rounds of
  a repetition suffice: `extendWhile` with as many rounds as characters are left behaves as if it
  had no bound (`extendWhile_some`).

  What has been read is the beginning of what a repetition makes of it (`starts_extendWhile`).
-/
import Positional.Expression.Grammar
import Positional.Proofs.Expression.Cursor
import Positional.Proofs.Expression.Order

namespace Positional

open Cursor

/-! ## (1) Taking characters -/

/-- From `c` ahead to `d`, over at least one character if any is left. -/
def Cursor.Passes (c d : Cursor) : Prop := Ahead c d ∧ (c.rest ≠ [] → d.rest.length < c.rest.length)

namespace Cursor

theorem Passes.trans_ahead {c d e : Cursor} (h : Passes c d) (h' : Ahead d e) : Passes c e := by
  refine ⟨h.1.trans h', fun hc => ?_⟩
  have := h.2 hc
  have := h'.length_le
  omega

theorem Ahead.trans_passes {c d e : Cursor} (h : Ahead c d) (h' : Passes d e) : Passes c e := by
  refine ⟨h.trans h'.1, fun hc => ?_⟩
  have hle := h.length_le
  have hpos := List.length_pos_iff.mpr hc
  by_cases hd : d.rest = []
  · rw [h'.1.rest_nil hd, hd]
    exact hpos
  · have := h'.2 hd
    omega

theorem passes_toEnd (c : Cursor) : Passes c c.toEnd :=
  ⟨ahead_toEnd c, fun hc => by rw [rest_toEnd]; exact List.length_pos_iff.mpr hc⟩

theorem Spans.passes {c d : Cursor} {w : Text} (h : Spans c w d) (hw : w ≠ []) : Passes c d := by
  refine ⟨⟨w, h⟩, fun _ => ?_⟩
  have := h.length
  have := List.length_pos_iff.mpr hw
  omega

theorem Token.passes {x : Char} {c d : Cursor} (h : Token x c d) : Passes c d := by
  obtain ⟨w, _, hs⟩ := h
  exact hs.passes (by simp)

theorem Passes.position_lt {c d : Cursor} (h : Passes c d) (hc : c.rest ≠ []) : c.position < d.position := by
  have := h.1.position
  have := h.2 hc
  omega

theorem Ahead.position_le {c d : Cursor} (h : Ahead c d) : c.position ≤ d.position := by
  have := h.position
  have := h.length_le
  omega

theorem Token.position_lt {x : Char} {c d : Cursor} (h : Token x c d) : c.position < d.position := by
  have := h.ahead.position
  have := h.length_lt
  omega

end Cursor

namespace Expression

def Moves (r : Reader) : Prop := ∀ c, Passes c (r c).2

/-! ## (2) Repetition -/

section Repetition

variable {extend? : Expression → Cursor → Option (Expression × Cursor)}

theorem extendWhile_none {e : Expression} {c : Cursor} (h : extend? e c = none) (n : Nat) :
    extendWhile extend? n e c = (e, c) := by
  cases n with
  | zero => rfl
  | succ n => simp only [extendWhile, h]

/-- Every extension takes a character. -/
def Shrinks (extend? : Expression → Cursor → Option (Expression × Cursor)) : Prop :=
  ∀ e c e' c', extend? e c = some (e', c') → c'.rest.length < c.rest.length

/-- More rounds than characters make no difference. -/
theorem extendWhile_rounds (hs : Shrinks extend?) {n m : Nat} {e : Expression} {c : Cursor}
    (hn : c.rest.length ≤ n) (hm : c.rest.length ≤ m) : extendWhile extend? n e c = extendWhile extend? m e c := by
  induction n generalizing m e c with
  | zero =>
    cases he : extend? e c with
    | none => rw [extendWhile_none he, extendWhile_none he]
    | some r => have := hs _ _ _ _ he; omega
  | succ n ih =>
    cases he : extend? e c with
    | none => rw [extendWhile_none he, extendWhile_none he]
    | some r =>
      have hlt := hs _ _ _ _ he
      cases m with
      | zero => omega
      | succ m =>
        simp only [extendWhile, he]
        exact ih (by omega) (by omega)

theorem extendWhile_some (hs : Shrinks extend?) {n : Nat} {e e' : Expression} {c c' : Cursor}
    (hn : c.rest.length ≤ n) (h : extend? e c = some (e', c')) :
    extendWhile extend? n e c = extendWhile extend? n e' c' := by
  have hlt := hs _ _ _ _ h
  rw [extendWhile_rounds hs hn (Nat.le_succ_of_le hn)]
  simp only [extendWhile, h]

theorem ahead_extendWhile (ha : ∀ {e c e' c'}, extend? e c = some (e', c') → Ahead c c') (n : Nat) (e : Expression)
    (c : Cursor) : Ahead c (extendWhile extend? n e c).2 := by
  induction n generalizing e c with
  | zero => exact Ahead.refl c
  | succ n ih =>
    cases h : extend? e c with
    | none => rw [extendWhile_none h]; exact Ahead.refl c
    | some r => simp only [extendWhile, h]; exact (ha h).trans (ih _ _)

theorem starts_extendWhile (hs : ∀ {e c e' c'}, extend? e c = some (e', c') → Starts e e') (n : Nat)
    (e : Expression) (c : Cursor) : Starts e (extendWhile extend? n e c).1 := by
  induction n generalizing e c with
  | zero => exact .refl
  | succ n ih =>
    cases h : extend? e c with
    | none => rw [extendWhile_none h]; exact .refl
    | some r => simp only [extendWhile, h]; exact (hs h).trans (ih _ _)

end Repetition

/-! ## (3) Links and adjacent factors -/

theorem isBlank_symbol (op : Operator) : isBlank op.symbol = false := by cases op <;> rfl

theorem symbol_injective {op op' : Operator} (h : op.symbol = op'.symbol) : op = op' := by
  cases op <;> cases op' <;> first | rfl | exact absurd h (by decide)

theorem find?_symbol {ops : List Operator} {x : Char} {op : Operator} :
    ops.find? (·.symbol = x) = some op ↔ op ∈ ops ∧ op.symbol = x := by
  constructor
  · intro h
    exact ⟨List.mem_of_find?_eq_some h, by simpa using List.find?_some h⟩
  · intro ⟨hm, hx⟩
    cases h : ops.find? (·.symbol = x) with
    | none => exact absurd hx (by simpa using List.find?_eq_none.mp h op hm)
    | some op' =>
      have hx' : op'.symbol = x := by simpa using List.find?_some h
      rw [symbol_injective (hx'.trans hx.symm)]

theorem eatOperator?_eq_some_iff {ops : List Operator} {c d : Cursor} {op : Operator} :
    eatOperator? ops c = some (op, d) ↔ op ∈ ops ∧ Token op.symbol c d := by
  have hb : ∀ x, isBlank x = true → ops.find? (·.symbol = x) = none := by
    intro x hx
    cases h : ops.find? (·.symbol = x) with
    | none => rfl
    | some op' =>
      rw [← (find?_symbol.mp h).2, isBlank_symbol] at hx
      cases hx
  rw [eatOperator?, eatAny?_eq_some_iff hb]
  constructor
  · intro ⟨x, hf, ht⟩
    obtain ⟨hm, rfl⟩ := find?_symbol.mp hf
    exact ⟨hm, ht⟩
  · intro ⟨hm, ht⟩
    exact ⟨op.symbol, find?_symbol.mpr ⟨hm, rfl⟩, ht⟩

theorem link?_eq_some {ops : List Operator} (operand : Reader) (left : Expression) {c d : Cursor} {op : Operator}
    (hm : op ∈ ops) (ht : Token op.symbol c d) :
    link? ops operand left c = some (.binary op left (operand d).1, (operand d).2) := by
  rw [link?, eatOperator?_eq_some_iff.mpr ⟨hm, ht⟩]
  rfl

theorem exists_of_link? {ops : List Operator} {operand : Reader} {left e : Expression} {c c' : Cursor}
    (h : link? ops operand left c = some (e, c')) :
    ∃ op ∈ ops, ∃ d, Token op.symbol c d ∧ e = .binary op left (operand d).1 ∧ c' = (operand d).2 := by
  obtain ⟨⟨op, d⟩, ho, he⟩ := Option.map_eq_some_iff.mp h
  obtain ⟨hm, ht⟩ := eatOperator?_eq_some_iff.mp ho
  cases he
  exact ⟨op, hm, d, ht, rfl, rfl⟩

theorem link?_eq_none {ops : List Operator} (operand : Reader) (left : Expression) {c : Cursor}
    (h : ∀ op ∈ ops, ∀ d, ¬ Token op.symbol c d) : link? ops operand left c = none := by
  cases hl : link? ops operand left c with
  | none => rfl
  | some r =>
    obtain ⟨op, hm, d, ht, _⟩ := exists_of_link? hl
    exact absurd ht (h op hm d)

theorem starts_link? {ops : List Operator} {operand : Reader} {e e' : Expression} {c c' : Cursor}
    (h : link? ops operand e c = some (e', c')) : Starts e e' := by
  obtain ⟨op, _, d, _, rfl, _⟩ := exists_of_link? h
  exact .left op _ .refl

theorem adjoin?_eq_some (factor : Reader) (left : Expression) {c : Cursor} {x : Char} (hn : c.next? = some x)
    (hx : startsFactor x = true) :
    adjoin? factor left c = some (.binary .multiply left (factor c).1, (factor c).2) := by
  simp only [adjoin?, hn, Option.any_some, hx, if_true]

theorem adjoin?_eq_none (factor : Reader) (left : Expression) {c : Cursor}
    (h : ∀ x, c.next? = some x → startsFactor x = false) : adjoin? factor left c = none := by
  rw [adjoin?, if_neg]
  cases hn : c.next? with
  | none => simp
  | some x => simp [h x hn]

theorem exists_of_adjoin? {factor : Reader} {left e : Expression} {c c' : Cursor}
    (h : adjoin? factor left c = some (e, c')) :
    (∃ x, c.next? = some x ∧ startsFactor x = true) ∧ e = .binary .multiply left (factor c).1 ∧ c' = (factor c).2 := by
  unfold adjoin? at h
  split at h
  · rename_i hx
    cases h
    exact ⟨(Option.any_eq_true _ _).mp hx, rfl, rfl⟩
  · cases h

theorem starts_adjoin? {factor : Reader} {e e' : Expression} {c c' : Cursor}
    (h : adjoin? factor e c = some (e', c')) : Starts e e' := by
  obtain ⟨_, rfl, _⟩ := exists_of_adjoin? h
  exact .left _ _ .refl

theorem passes_link? {ops : List Operator} {operand : Reader} (ho : Moves operand) {e e' : Expression} {c c' : Cursor}
    (h : link? ops operand e c = some (e', c')) : Ahead c c' ∧ c'.rest.length < c.rest.length := by
  obtain ⟨op, _, d, ht, _, rfl⟩ := exists_of_link? h
  refine ⟨ht.ahead.trans (ho d).1, ?_⟩
  have := ht.length_lt
  have := (ho d).1.length_le
  omega

theorem passes_adjoin? {factor : Reader} (hf : Moves factor) {e e' : Expression} {c c' : Cursor}
    (h : adjoin? factor e c = some (e', c')) : Ahead c c' ∧ c'.rest.length < c.rest.length := by
  obtain ⟨⟨x, hn, _⟩, _, rfl⟩ := exists_of_adjoin? h
  refine ⟨(hf c).1, (hf c).2 fun hc => ?_⟩
  rw [Cursor.next?, hc] at hn
  cases hn

theorem shrinks_link? {operand : Reader} (ho : Moves operand) (ops : List Operator) : Shrinks (link? ops operand) :=
  fun _ _ _ _ h => (passes_link? ho h).2

theorem shrinks_adjoin? {factor : Reader} (hf : Moves factor) : Shrinks (adjoin? factor) :=
  fun _ _ _ _ h => (passes_adjoin? hf h).2

/-! ## (4) All readers move -/

theorem moves_chain {operand : Reader} (ho : Moves operand) (size : Nat) (ops : List Operator) :
    Moves (chain size ops operand) := fun c =>
  (ho c).trans_ahead (ahead_extendWhile (fun h => (passes_link? ho h).1) size _ _)

theorem moves_expression {factor : Reader} (hf : Moves factor) (size : Nat) : Moves (expression size factor) :=
  moves_chain (moves_chain hf size multiplicative) size additive

theorem passes_enclosed {factor : Reader} (hf : Moves factor) (size opened : Nat) (c : Cursor) :
    Passes c (enclosed size factor opened c).2 := by
  simp only [enclosed]
  split
  · rename_i d hd
    exact (moves_expression hf size c).trans_ahead ((eat?_eq_some_iff rfl).mp hd).ahead
  · exact (moves_expression hf size c).trans_ahead ((ahead_skipBlanks _).trans (ahead_toEnd _))

theorem decimalLexeme_ne_nil {x : Char} {t : Text} (h : x.isDigit = true ∨ x = '.') : decimalLexeme (x :: t) ≠ [] := by
  rw [decimalLexeme.eq_def]
  simp only []
  rw [if_pos (by simpa using h)]
  exact List.cons_ne_nil _ _

theorem decimalLexeme_append (t : Text) : ∃ after, t = decimalLexeme t ++ after := by
  fun_induction decimalLexeme t with
  | case1 => exact ⟨[], rfl⟩
  | case2 x t h ih =>
    obtain ⟨after, he⟩ := ih
    exact ⟨after, by rw [List.cons_append, ← he]⟩
  | case3 x h hm => exact ⟨[x], rfl⟩
  | case4 x h hm y u hy ih =>
    obtain ⟨after, he⟩ := ih
    exact ⟨after, by rw [List.cons_append, ← he]⟩
  | case5 x h hm y u hy hs ih =>
    obtain ⟨after, he⟩ := ih
    exact ⟨after, by rw [List.cons_append, List.cons_append, ← he]⟩
  | case6 x h hm y u hy hs => exact ⟨x :: y :: u, rfl⟩
  | case7 x t h hm => exact ⟨x :: t, rfl⟩

/-- A decimal literal reaches to the place after it. -/
theorem spans_decimalLexeme (c : Cursor) : Spans c (decimalLexeme c.rest) (c.advance (decimalLexeme c.rest).length) := by
  obtain ⟨after, h⟩ := decimalLexeme_append c.rest
  exact (spans_advance h).1

theorem passes_readDecimal {c : Cursor} (h : decimalLexeme c.rest ≠ []) : Passes c (readDecimal c).2 := by
  simp only [readDecimal]
  split
  · exact (spans_decimalLexeme c).passes h
  · exact ((spans_decimalLexeme c).passes h).trans_ahead (ahead_toEnd _)

theorem ahead_readHexadecimal (c : Cursor) : Ahead (c.advance 2) (readHexadecimal c).2 := by
  have hr : Ahead (c.advance 2) ((c.advance 2).takeRun Digit.isDigit).2 := ⟨_, spans_takeRun _ _⟩
  simp only [readHexadecimal]
  split
  · exact hr.trans (ahead_toEnd _)
  · split
    · exact hr
    · exact hr.trans (ahead_toEnd _)

theorem spans_isHexadecimal {c : Cursor} (h : isHexadecimal c.rest = true) :
    ∃ marker, (marker = 'x' ∨ marker = 'X') ∧ Spans c ['0', marker] (c.advance 2) := by
  unfold isHexadecimal at h
  split at h
  · rename_i marker t ht
    exact ⟨marker, by simpa using h, (spans_advance (w := ['0', marker]) ht).1⟩
  · cases h

theorem passes_readHexadecimal {c : Cursor} (h : isHexadecimal c.rest = true) : Passes c (readHexadecimal c).2 := by
  obtain ⟨marker, _, hs⟩ := spans_isHexadecimal h
  exact (hs.passes (List.cons_ne_nil _ _)).trans_ahead (ahead_readHexadecimal c)

theorem passes_named {factor : Reader} (hf : Moves factor) {c : Cursor} (h : (c.takeRun isAlphabetic).1 ≠ []) :
    Passes c (named factor c).2 := by
  have hr := (spans_takeRun isAlphabetic c).passes h
  simp only [named]
  split
  · exact hr
  · exact hr.trans_ahead (hf _).1
  · exact hr.trans_ahead (ahead_toEnd _)

theorem moves_atom {factor : Reader} (hf : Moves factor) (size : Nat) : Moves (atom size factor) := by
  intro c
  refine (ahead_skipBlanks c).trans_passes ?_
  simp only [atom]
  generalize c.skipBlanks = d
  split
  · exact passes_toEnd d
  · rename_i x t hd
    have hnext := (spans_next hd).1.passes (List.cons_ne_nil x [])
    split
    · exact hnext.trans_ahead (passes_enclosed hf size d.position _).1
    split
    · rename_i hx
      exact passes_readHexadecimal hx
    split
    · rename_i hx
      refine passes_readDecimal ?_
      rw [hd]
      exact decimalLexeme_ne_nil (by simpa using hx)
    split
    · exact hnext.trans_ahead (hf _).1
    split
    · rename_i hx
      refine passes_named hf ?_
      simp only [takeRun, hd, List.takeWhile_cons_of_pos hx]
      exact List.cons_ne_nil _ _
    · exact passes_toEnd d

theorem ahead_postfixed (factorial : Bool) (e : Expression) (c : Cursor) : Ahead c (postfixed factorial e c).2 := by
  simp only [postfixed]
  split
  · rename_i d hd
    split at hd
    · exact ((eat?_eq_some_iff rfl).mp hd).ahead
    · cases hd
  · exact Ahead.refl c

theorem ahead_products {factor : Reader} (hf : Moves factor) (size : Nat) (e : Expression) (c : Cursor) :
    Ahead c (products size factor e c).2 :=
  ahead_extendWhile (fun h => (passes_adjoin? hf h).1) size e c

theorem moves_unary_factor (factorial : Bool) (size depth : Nat) :
    Moves (unary factorial size depth) ∧ Moves (factor factorial size depth) := by
  induction depth with
  | zero => exact ⟨passes_toEnd, passes_toEnd⟩
  | succ depth ih =>
    obtain ⟨hu, hf⟩ := ih
    refine ⟨fun c => ?_, fun c => ?_⟩
    · simp only [unary]
      split
      · rename_i d hd
        exact ((eat?_eq_some_iff rfl).mp hd).passes.trans_ahead (hu d).1
      split
      · rename_i d hd
        exact ((eat?_eq_some_iff rfl).mp hd).passes.trans_ahead (hu d).1
      have ha := moves_atom hf size c
      split
      · rename_i d hd
        exact ha.trans_ahead (((eat?_eq_some_iff rfl).mp hd).ahead.trans (hf d).1)
      · exact ha
    · exact ((hu c).trans_ahead (ahead_postfixed _ _ _)).trans_ahead (ahead_products hf _ _ _)

theorem moves_unary (factorial : Bool) (size depth : Nat) : Moves (unary factorial size depth) :=
  (moves_unary_factor factorial size depth).1

theorem moves_factor (factorial : Bool) (size depth : Nat) : Moves (factor factorial size depth) :=
  (moves_unary_factor factorial size depth).2

/-! ## (5) What is read first is evaluated first -/

section Starts

variable {size : Nat}

theorem starts_chain (ops : List Operator) (operand : Reader) (c : Cursor) :
    Starts (operand c).1 (chain size ops operand c).1 :=
  starts_extendWhile (fun h => starts_link? h) size _ _

theorem starts_expression (f : Reader) (c : Cursor) : Starts (f c).1 (expression size f c).1 :=
  (starts_chain multiplicative f c).trans (starts_chain additive _ c)

theorem starts_products (f : Reader) (first : Expression) (c : Cursor) : Starts first (products size f first c).1 :=
  starts_extendWhile (fun h => starts_adjoin? h) size _ _

theorem starts_postfixed (factorial : Bool) (e : Expression) (c : Cursor) : Starts e (postfixed factorial e c).1 := by
  simp only [postfixed]
  split
  · exact .factorial .refl
  · exact .refl

theorem starts_factor (factorial : Bool) (size n : Nat) (c : Cursor) :
    Starts (unary factorial size n c).1 (factor factorial size (n + 1) c).1 :=
  (starts_postfixed factorial _ _).trans (starts_products _ _ _)

theorem starts_enclosed (f : Reader) (opened : Nat) (c : Cursor) :
    Starts (expression size f c).1 (enclosed size f opened c).1 := by
  simp only [enclosed]
  split
  · exact .refl
  · exact .faultAfter _ .refl

end Starts

end Expression

end Positional
