/-
  Positional.Expression.Cursor — a place in a text that is being read.

  A cursor holds what is left of the text and how many characters lie before it. It only
  moves forward (`advance`), so the two always fit together: `Within` says so, and every
  move keeps it (`Within.advance`, `Within.eat?`).
-/
import Positional.Text

namespace Positional

structure Cursor where
  rest : Text
  position : Nat
  deriving DecidableEq

namespace Cursor

def start (t : Text) : Cursor := ⟨t, 0⟩

/-- Moves over `n` characters, or to the end if there are fewer. -/
def advance : Cursor → Nat → Cursor
  | c, 0 => c
  | ⟨[], p⟩, _ + 1 => ⟨[], p⟩
  | ⟨_ :: t, p⟩, n + 1 => advance ⟨t, p + 1⟩ n

def next? (c : Cursor) : Option Char := c.rest.head?

def skipBlanks (c : Cursor) : Cursor := c.advance (c.rest.takeWhile isBlank).length

/-- Nothing more is read. -/
def toEnd (c : Cursor) : Cursor := c.advance c.rest.length

/-- Moves over blanks and the first symbol that `choose?` takes, if one follows. -/
def eatAny? {α : Type} (choose? : Char → Option α) (c : Cursor) : Option (α × Cursor) := do
  let c := c.skipBlanks
  let symbol ← c.next?
  let chosen ← choose? symbol
  return (chosen, c.advance 1)

/-- Moves over blanks and `symbol`, if it follows them. -/
def eat? (symbol : Char) (c : Cursor) : Option Cursor :=
  (c.eatAny? fun x => if x = symbol then some () else none).map (·.2)

/-- The characters up to the first one that is not in the class, and the place after them. -/
def takeRun (inClass : Char → Bool) (c : Cursor) : Text × Cursor :=
  let run := c.rest.takeWhile inClass
  (run, c.advance run.length)

/-- The cursor stands in `t`. -/
def Within (t : Text) (c : Cursor) : Prop := c.position ≤ t.length ∧ c.rest = t.drop c.position

theorem within_start (t : Text) : Within t (start t) := ⟨Nat.zero_le _, rfl⟩

theorem Within.advance {t : Text} {c : Cursor} (h : Within t c) (n : Nat) : Within t (c.advance n) := by
  fun_induction Cursor.advance c n with
  | case1 => exact h
  | case2 => exact h
  | case3 x u p n ih =>
    obtain ⟨hp, hr⟩ := h
    have hlt : p < t.length := by
      have := congrArg List.length hr
      simp only [List.length_cons, List.length_drop] at this
      omega
    refine ih ⟨hlt, ?_⟩
    rw [List.drop_eq_getElem_cons hlt] at hr
    exact (List.cons.inj hr).2

theorem Within.eat? {t : Text} {c d : Cursor} {symbol : Char} (h : Within t c)
    (hd : c.eat? symbol = some d) : Within t d := by
  simp only [Cursor.eat?, Cursor.eatAny?, Option.map_eq_some_iff] at hd
  obtain ⟨⟨u, e⟩, he, rfl⟩ := hd
  simp only [Option.bind_eq_bind, Option.bind_eq_some_iff] at he
  obtain ⟨x, _, y, _, hpure⟩ := he
  cases hpure
  exact (h.advance _).advance _

end Cursor

end Positional
