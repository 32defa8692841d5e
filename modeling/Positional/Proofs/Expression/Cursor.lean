/-
  Positional.Proofs.Expression.Cursor — what a cursor moves over.

  `Spans c w d`: the text `w` lies between the cursors `c` and `d`. The moves of a cursor are
  described by what they span: blanks (`Gap`), blanks and one symbol (`Token`), or all of a
  run of characters of one class (`Run`). Each description fits at most one place `d`, and
  the functions of `Cursor` find it:

  - `skipBlanks_eq`: the end of a gap before a character that is not blank;
  - `eat?_eq_some_iff`, `eatAny?_eq_some_iff`: a symbol is eaten exactly where it is a token;
  - `takeRun_eq`: the end of a run.

  `Ahead c d` forgets what lies between; every reader of expressions moves ahead.
-/
import Positional.Expression.Cursor
import Positional.Proofs.Text.Cuts

namespace Positional.Cursor

/-- `w` is the text between `c` and `d`. -/
def Spans (c : Cursor) (w : Text) (d : Cursor) : Prop := c.rest = w ++ d.rest ∧ d.position = c.position + w.length

def Ahead (c d : Cursor) : Prop := ∃ w, Spans c w d

def Gap (c d : Cursor) : Prop := ∃ w, Blank w ∧ Spans c w d

/-- `x` comes next, blanks allowed before it, and `d` is the place after it. -/
def Token (x : Char) (c d : Cursor) : Prop := ∃ w, Blank w ∧ Spans c (w ++ [x]) d

/-- `w` is a run of characters of a class, with at least one of them, that cannot be longer. -/
def Run (inClass : Char → Bool) (c : Cursor) (w : Text) (d : Cursor) : Prop :=
  Spans c w d ∧ w ≠ [] ∧ (∀ x ∈ w, inClass x = true) ∧ ∀ x, d.next? = some x → inClass x = false

/-! ## (1) Spans -/

theorem spans_refl (c : Cursor) : Spans c [] c := ⟨rfl, rfl⟩

theorem Spans.trans {c d e : Cursor} {v w : Text} (h : Spans c v d) (h' : Spans d w e) : Spans c (v ++ w) e := by
  refine ⟨by rw [h.1, h'.1, List.append_assoc], ?_⟩
  rw [h'.2, h.2, List.length_append, Nat.add_assoc]

theorem Spans.unique {c d e : Cursor} {w : Text} (h : Spans c w d) (h' : Spans c w e) : d = e := by
  have hr : d.rest = e.rest := List.append_cancel_left (h.1.symm.trans h'.1)
  have hp : d.position = e.position := h.2.trans h'.2.symm
  cases d; cases e; simp_all

theorem Spans.length {c d : Cursor} {w : Text} (h : Spans c w d) : c.rest.length = w.length + d.rest.length := by
  rw [h.1, List.length_append]

theorem Ahead.refl (c : Cursor) : Ahead c c := ⟨[], spans_refl c⟩

theorem Ahead.trans {c d e : Cursor} (h : Ahead c d) (h' : Ahead d e) : Ahead c e := by
  obtain ⟨v, hv⟩ := h
  obtain ⟨w, hw⟩ := h'
  exact ⟨v ++ w, hv.trans hw⟩

theorem Ahead.length_le {c d : Cursor} (h : Ahead c d) : d.rest.length ≤ c.rest.length := by
  obtain ⟨w, hw⟩ := h
  have := hw.length
  omega

theorem Ahead.position {c d : Cursor} (h : Ahead c d) :
    d.position + d.rest.length = c.position + c.rest.length := by
  obtain ⟨w, hw⟩ := h
  have := hw.length
  have := hw.2
  omega

theorem Ahead.rest_nil {c d : Cursor} (h : Ahead c d) (hc : c.rest = []) : d = c := by
  obtain ⟨w, hw⟩ := h
  have hl := hw.length
  have hw0 : w = [] := List.eq_nil_of_length_eq_zero (by rw [hc] at hl; simp at hl; omega)
  subst hw0
  exact hw.unique (spans_refl c)

theorem spans_advance {c : Cursor} {w r : Text} (h : c.rest = w ++ r) :
    Spans c w (c.advance w.length) ∧ (c.advance w.length).rest = r := by
  induction w generalizing c with
  | nil => exact ⟨spans_refl c, h⟩
  | cons x w ih =>
    obtain ⟨rest, p⟩ := c
    replace h : rest = x :: (w ++ r) := h
    subst h
    obtain ⟨⟨-, hp⟩, hr⟩ := ih (c := ⟨w ++ r, p + 1⟩) rfl
    have he : Cursor.advance ⟨x :: (w ++ r), p⟩ (x :: w).length = Cursor.advance ⟨w ++ r, p + 1⟩ w.length := rfl
    rw [← he] at hp hr
    refine ⟨⟨by rw [hr]; rfl, ?_⟩, hr⟩
    rw [hp, List.length_cons, Nat.add_assoc, Nat.add_comm 1]

theorem advance_eq {c d : Cursor} {w : Text} (h : Spans c w d) : c.advance w.length = d :=
  (spans_advance h.1).1.unique h

theorem ahead_advance (c : Cursor) (n : Nat) : Ahead c (c.advance n) := by
  fun_induction Cursor.advance c n with
  | case1 c => exact Ahead.refl c
  | case2 p n => exact Ahead.refl _
  | case3 x t p n ih => exact Ahead.trans (d := ⟨t, p + 1⟩) ⟨[x], rfl, rfl⟩ ih

theorem rest_toEnd (c : Cursor) : c.toEnd.rest = [] := (spans_advance (c.rest.append_nil).symm).2

theorem ahead_toEnd (c : Cursor) : Ahead c c.toEnd := ahead_advance _ _

/-- The next character is moved over. -/
theorem spans_next {c : Cursor} {x : Char} {t : Text} (h : c.rest = x :: t) :
    Spans c [x] (c.advance 1) ∧ (c.advance 1).rest = t :=
  spans_advance (w := [x]) h

/-! ## (2) Blanks -/

theorem spans_skipBlanks (c : Cursor) : Spans c (c.rest.takeWhile isBlank) c.skipBlanks :=
  (spans_advance (List.takeWhile_append_dropWhile (p := isBlank)).symm).1

theorem rest_skipBlanks (c : Cursor) : c.skipBlanks.rest = c.rest.dropWhile isBlank :=
  (spans_advance (List.takeWhile_append_dropWhile (p := isBlank)).symm).2

theorem gap_skipBlanks (c : Cursor) : Gap c c.skipBlanks :=
  ⟨_, fun _ hx => List.all_eq_true.mp List.all_takeWhile _ hx, spans_skipBlanks c⟩

theorem ahead_skipBlanks (c : Cursor) : Ahead c c.skipBlanks := ⟨_, spans_skipBlanks c⟩

theorem next?_skipBlanks {c : Cursor} {x : Char} (h : c.skipBlanks.next? = some x) : isBlank x = false := by
  have := List.head?_dropWhile_not isBlank c.rest
  rw [Cursor.next?, rest_skipBlanks] at h
  rw [h] at this
  simpa using this

theorem skipBlanks_eq {c d : Cursor} (h : Gap c d) (hd : ∀ x, d.next? = some x → isBlank x = false) :
    c.skipBlanks = d := by
  obtain ⟨w, hw, hs⟩ := h
  have ht : c.rest.takeWhile isBlank = w := by
    rw [hs.1, List.takeWhile_append_of_pos hw]
    cases hr : d.rest with
    | nil => simp
    | cons x t => rw [List.takeWhile_cons_of_neg (by simpa using hd x (by simp [Cursor.next?, hr])), List.append_nil]
  exact (spans_skipBlanks c).unique (ht ▸ hs)

theorem Gap.ahead {c d : Cursor} (h : Gap c d) : Ahead c d := by
  obtain ⟨w, _, hs⟩ := h
  exact ⟨w, hs⟩

theorem Gap.trans {c d e : Cursor} (h : Gap c d) (h' : Gap d e) : Gap c e := by
  obtain ⟨v, hv, hs⟩ := h
  obtain ⟨w, hw, hs'⟩ := h'
  exact ⟨v ++ w, fun x hx => (List.mem_append.mp hx).elim (hv x) (hw x), hs.trans hs'⟩

theorem Gap.refl (c : Cursor) : Gap c c := ⟨[], Text.blank_nil, spans_refl c⟩

/-- Blanks at the front do not change where skipping blanks ends. -/
theorem Gap.skipBlanks {c d : Cursor} (h : Gap c d) : c.skipBlanks = d.skipBlanks :=
  skipBlanks_eq (h.trans (gap_skipBlanks d)) fun _ => next?_skipBlanks

theorem blank_iff {c : Cursor} : Blank c.rest ↔ c.skipBlanks.rest = [] := by
  rw [rest_skipBlanks]
  constructor
  · exact Text.dropWhile_blank
  · intro h x hx
    rw [← List.takeWhile_append_dropWhile (p := isBlank) (l := c.rest), h, List.append_nil] at hx
    exact List.all_eq_true.mp List.all_takeWhile _ hx

/-! ## (3) Tokens and runs -/

theorem token_iff {x : Char} (hx : isBlank x = false) {c d : Cursor} :
    Token x c d ↔ c.skipBlanks.next? = some x ∧ c.skipBlanks.advance 1 = d := by
  constructor
  · rintro ⟨w, hw, hs⟩
    have hg : Gap c ⟨x :: d.rest, c.position + w.length⟩ := ⟨w, hw, by rw [hs.1, List.append_assoc]; rfl, rfl⟩
    have he : c.skipBlanks = ⟨x :: d.rest, c.position + w.length⟩ := by
      refine skipBlanks_eq hg fun y hy => ?_
      cases hy
      exact hx
    rw [he]
    refine ⟨rfl, advance_eq (w := [x]) ⟨rfl, ?_⟩⟩
    rw [hs.2, List.length_append, Nat.add_assoc]
  · rintro ⟨hn, rfl⟩
    obtain ⟨t, ht⟩ := List.head?_eq_some_iff.mp hn
    obtain ⟨w, hw, hs⟩ := gap_skipBlanks c
    exact ⟨w, hw, hs.trans (spans_next ht).1⟩

theorem Gap.token {x : Char} {c d e : Cursor} (h : Gap c d) (ht : Token x d e) : Token x c e := by
  obtain ⟨v, hv, hs⟩ := h
  obtain ⟨w, hw, hs'⟩ := ht
  exact ⟨v ++ w, fun y hy => (List.mem_append.mp hy).elim (hv y) (hw y),
    by rw [List.append_assoc]; exact hs.trans hs'⟩

theorem Token.skipBlanks {x : Char} (hx : isBlank x = false) {c d : Cursor} (h : Token x c d) :
    Token x c.skipBlanks d := by
  rw [token_iff hx] at h ⊢
  rwa [← (gap_skipBlanks c).skipBlanks]

theorem Token.symbol_unique {x y : Char} (hx : isBlank x = false) (hy : isBlank y = false) {c d e : Cursor}
    (h : Token x c d) (h' : Token y c e) : x = y :=
  Option.some.inj (((token_iff hx).mp h).1.symm.trans ((token_iff hy).mp h').1)

theorem Token.ahead {x : Char} {c d : Cursor} (h : Token x c d) : Ahead c d := by
  obtain ⟨w, _, hs⟩ := h
  exact ⟨_, hs⟩

theorem Token.length_lt {x : Char} {c d : Cursor} (h : Token x c d) : d.rest.length < c.rest.length := by
  obtain ⟨w, _, hs⟩ := h
  have := hs.length
  simp only [List.length_append, List.length_cons] at this
  omega

theorem eatAny?_eq_some_iff {α : Type} {choose? : Char → Option α} (hb : ∀ x, isBlank x = true → choose? x = none)
    {c d : Cursor} {a : α} : c.eatAny? choose? = some (a, d) ↔ ∃ x, choose? x = some a ∧ Token x c d := by
  simp only [Cursor.eatAny?, Option.bind_eq_bind, Option.bind_eq_some_iff, Option.pure_def, Option.some.injEq,
    Prod.mk.injEq]
  constructor
  · rintro ⟨x, hx, b, hb', rfl, rfl⟩
    exact ⟨x, hb', (token_iff (next?_skipBlanks hx)).mpr ⟨hx, rfl⟩⟩
  · rintro ⟨x, hx, ht⟩
    have hx' : isBlank x = false := by
      cases e : isBlank x with
      | false => rfl
      | true => rw [hb x e] at hx; cases hx
    obtain ⟨hn, hd⟩ := (token_iff hx').mp ht
    exact ⟨x, hn, a, hx, rfl, hd⟩

theorem eat?_eq_some_iff {x : Char} (hx : isBlank x = false) {c d : Cursor} : c.eat? x = some d ↔ Token x c d := by
  have hb : ∀ y, isBlank y = true → (if y = x then some () else none) = none := by
    intro y hy
    rw [if_neg]
    rintro rfl
    rw [hx] at hy
    cases hy
  simp only [Cursor.eat?, Option.map_eq_some_iff, Prod.exists]
  constructor
  · rintro ⟨⟨⟩, d', h, rfl⟩
    obtain ⟨y, hy, ht⟩ := (eatAny?_eq_some_iff hb).mp h
    split at hy
    · subst y; exact ht
    · cases hy
  · intro h
    exact ⟨(), d, (eatAny?_eq_some_iff hb).mpr ⟨x, if_pos rfl, h⟩, rfl⟩

theorem eat?_eq_none_iff {x : Char} (hx : isBlank x = false) {c : Cursor} :
    c.eat? x = none ↔ ∀ d, ¬ Token x c d := by
  rw [Option.eq_none_iff_forall_ne_some]
  exact forall_congr' fun d => not_congr (eat?_eq_some_iff hx)

theorem spans_takeRun (p : Char → Bool) (c : Cursor) : Spans c (c.takeRun p).1 (c.takeRun p).2 :=
  (spans_advance (List.takeWhile_append_dropWhile (p := p)).symm).1

theorem all_takeRun (p : Char → Bool) (c : Cursor) : ∀ x ∈ (c.takeRun p).1, p x = true := fun _ hx =>
  List.all_eq_true.mp List.all_takeWhile _ hx

theorem next?_takeRun {p : Char → Bool} {c : Cursor} {x : Char} (h : (c.takeRun p).2.next? = some x) :
    p x = false := by
  have hr : (c.takeRun p).2.rest = c.rest.dropWhile p :=
    (spans_advance (List.takeWhile_append_dropWhile (p := p)).symm).2
  have := List.head?_dropWhile_not p c.rest
  rw [Cursor.next?, hr] at h
  rw [h] at this
  simpa using this

theorem run_takeRun {p : Char → Bool} {c : Cursor} (h : (c.takeRun p).1 ≠ []) :
    Run p c (c.takeRun p).1 (c.takeRun p).2 :=
  ⟨spans_takeRun p c, h, all_takeRun p c, fun _ => next?_takeRun⟩

theorem takeRun_eq {p : Char → Bool} {c d : Cursor} {w : Text} (h : Run p c w d) : c.takeRun p = (w, d) := by
  obtain ⟨hs, _, hw, hd⟩ := h
  have ht : c.rest.takeWhile p = w := by
    rw [hs.1, List.takeWhile_append_of_pos hw]
    cases hr : d.rest with
    | nil => simp
    | cons x t => rw [List.takeWhile_cons_of_neg (by simpa using hd x (by simp [Cursor.next?, hr])), List.append_nil]
  simp only [Cursor.takeRun, ht, advance_eq hs]

theorem Run.ahead {p : Char → Bool} {c d : Cursor} {w : Text} (h : Run p c w d) : Ahead c d := ⟨w, h.1⟩

theorem Run.next {p : Char → Bool} {c d : Cursor} {w : Text} (h : Run p c w d) :
    ∃ x, c.next? = some x ∧ p x = true := by
  obtain ⟨hs, hne, hw, _⟩ := h
  cases w with
  | nil => exact absurd rfl hne
  | cons x w => exact ⟨x, by rw [Cursor.next?, hs.1]; rfl, hw x (List.mem_cons_self)⟩

end Positional.Cursor
