/-
  Positional.Text.Blank — the blank characters.

  A character is blank when it has the Unicode property White_Space. These are twenty-five
  characters: the tabulation and line-breaking controls, the space, and the spaces of
  other widths. The separators U+001C to U+001F and the characters without width
  (U+200B, U+FEFF) are not among them. The property is stable, so the list is closed.

  `isBlank_of_isWhitespace`: core's ASCII white space is blank.
-/

namespace Positional

def isBlank (c : Char) : Bool :=
  let n := c.toNat
  (9 ≤ n && n ≤ 13) || n == 0x20 || n == 0x85 || n == 0xa0 || n == 0x1680 ||
    (0x2000 ≤ n && n ≤ 0x200a) || n == 0x2028 || n == 0x2029 || n == 0x202f || n == 0x205f || n == 0x3000

theorem isBlank_of_isWhitespace {c : Char} (h : c.isWhitespace = true) : isBlank c = true := by
  simp only [Char.isWhitespace, Bool.or_eq_true, decide_eq_true_eq] at h
  rcases h with ((rfl | rfl) | rfl) | rfl <;> rfl

end Positional
