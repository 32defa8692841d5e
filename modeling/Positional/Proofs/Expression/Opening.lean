/-
  Positional.Proofs.Expression.Opening — parentheses at the front of a text.

  `Opens k c d`: from `c` to `d` stand `k` opening parentheses, blanks allowed before each. Each of
  them opens a factor and a unary. So behind them 2k parts less may be opened, what stands there is
  evaluated first (`starts_opens`), and with a limit of 2k or less reading breaks off before
  anything is evaluated (`starts_fault_of_opens`).
-/
import Positional.Proofs.Expression.Context
import Positional.Proofs.Expression.Reading

namespace Positional

open Cursor

/-! ## (1) Places and parentheses -/

inductive Cursor.Opens : Nat → Cursor → Cursor → Prop
  | none {c : Cursor} : Opens 0 c c
  | next {k : Nat} {c c₁ d : Cursor} : Token '(' c c₁ → Opens k c₁ d → Opens (k + 1) c d

namespace Cursor

/-- The last of the parentheses. -/
theorem Opens.exists_last {k : Nat} {c d : Cursor} (h : Opens (k + 1) c d) : ∃ c₁, Opens k c c₁ ∧ Token '(' c₁ d := by
  induction k generalizing c with
  | zero =>
    cases h with
    | next ht h =>
      cases h
      exact ⟨c, .none, ht⟩
  | succ k ih =>
    cases h with
    | next ht h =>
      obtain ⟨c₁, ho, ht'⟩ := ih h
      exact ⟨c₁, .next ht ho, ht'⟩

/-- Fewer of the parentheses. -/
theorem Opens.take {j k : Nat} {c d : Cursor} (h : Opens k c d) (hj : j ≤ k) : ∃ c₁, Opens j c c₁ := by
  induction h generalizing j with
  | @none c =>
    obtain rfl : j = 0 := Nat.le_zero.mp hj
    exact ⟨c, .none⟩
  | @next k c c₁ d ht _ ih =>
    cases j with
    | zero => exact ⟨c, .none⟩
    | succ j =>
      obtain ⟨c₂, ho⟩ := ih (Nat.le_of_succ_le_succ hj)
      exact ⟨c₂, .next ht ho⟩

theorem opens_embed {j k : Nat} {w : Text} {c d : Cursor} (h : Opens k c d) : Opens k (c.embed j w) (d.embed j w) := by
  induction h with
  | none => exact .none
  | next ht _ ih => exact .next (token_embed ht) ih

theorem Opens.ahead {k : Nat} {c d : Cursor} (h : Opens k c d) : Ahead c d := by
  induction h with
  | none => exact Ahead.refl _
  | next ht _ ih => exact ht.ahead.trans ih

theorem opens_replicate (k : Nat) (c : Cursor) (hc : c.rest = List.replicate k '(') : ∃ d, Opens k c d := by
  induction k generalizing c with
  | zero => exact ⟨c, .none⟩
  | succ k ih =>
    obtain ⟨hspans, hrest⟩ := spans_next (hc.trans List.replicate_succ)
    obtain ⟨d, hd⟩ := ih (c.advance 1) hrest
    exact ⟨d, .next ⟨[], fun _ hx => (List.not_mem_nil hx).elim, hspans⟩ hd⟩

/-- A pair of parentheses around a text opens one more. -/
theorem opens_parentheses {k : Nat} {lead inner trail : Text} {c : Cursor} (hl : Blank lead)
    (h : Opens k (Cursor.start inner) c) :
    Opens (k + 1) (Cursor.start (lead ++ '(' :: (inner ++ [')']) ++ trail)) (c.embed (lead.length + 1) ([')'] ++ trail)) := by
  refine .next ⟨lead, hl, ?_, ?_⟩ (opens_embed h)
  · simp [Cursor.start, Cursor.embed]
  · simp [Cursor.start, Cursor.embed]

/-- Blanks at the end of a text open nothing. -/
theorem Opens.of_embed {j k : Nat} {w : Text} (hw : Blank w) {c d : Cursor} (h : Opens k (c.embed j w) d) :
    ∃ d', Opens k c d' := by
  induction k generalizing c with
  | zero => exact ⟨c, .none⟩
  | succ k ih =>
    cases h with
    | next ht h =>
      obtain ⟨hn, rfl⟩ := (token_iff rfl).mp ht
      rw [next?_skipBlanks_embed, Text.dropWhile_blank hw] at hn
      have hn' : c.skipBlanks.next? = some '(' := by simpa using hn
      have ht' : Token '(' c (c.skipBlanks.advance 1) := (token_iff rfl).mpr ⟨hn', rfl⟩
      have he : (c.embed j w).skipBlanks.advance 1 = (c.skipBlanks.advance 1).embed j w :=
        ((token_iff rfl).mp (token_embed ht')).2
      rw [he] at h
      obtain ⟨d', h⟩ := ih h
      exact ⟨d', .next ht' h⟩

theorem Opens.trim {k : Nat} {t : Text} {c : Cursor} (h : Opens k (Cursor.start t) c) :
    ∃ d, Opens k (Cursor.start t.trim) d := by
  obtain ⟨lead, trail, hl, hr, ht⟩ := Text.exists_trim t
  have hg : Gap (Cursor.start t) ((Cursor.start t.trim).embed lead.length trail) := by
    refine ⟨lead, hl, ?_, Nat.add_comm _ _⟩
    show t = lead ++ (t.trim ++ trail)
    rw [← List.append_assoc, ← ht]
  cases h with
  | none => exact ⟨_, .none⟩
  | next htoken h =>
    obtain ⟨hn, he⟩ := (token_iff rfl).mp htoken
    rw [hg.skipBlanks] at hn he
    exact Opens.of_embed hr (.next ((token_iff rfl).mpr ⟨hn, he⟩) h)

end Cursor

namespace Expression

/-! ## (2) Readers -/

section Readers

variable (factorial : Bool) (size : Nat)

/-- Without a sign the atom of a unary is evaluated first. -/
theorem starts_unary {c : Cursor} (hplus : ∀ d, ¬ Token '+' c d) (hminus : ∀ d, ¬ Token '-' c d) (n : Nat) :
    Starts (atom size (factor factorial size n) c).1 (unary factorial size (n + 1) c).1 := by
  simp only [unary, (eat?_eq_none_iff rfl).mpr hplus, (eat?_eq_none_iff rfl).mpr hminus]
  split
  · exact .left _ _ .refl
  · exact .refl

/-- What is in parentheses is evaluated first, and read with two parts less. -/
theorem starts_of_parenthesis {c d : Cursor} (ht : Token '(' c d) (n : Nat) : ∃ opened,
    Starts (enclosed size (factor factorial size n) opened d).1 (expression size (factor factorial size (n + 2)) c).1 := by
  obtain ⟨opened, ha⟩ := atom_parentheses ht size (factor factorial size n)
  have hu := starts_unary factorial size (fun d' ht' => absurd (ht'.symbol_unique rfl rfl ht) (by decide))
    (fun d' ht' => absurd (ht'.symbol_unique rfl rfl ht) (by decide)) n
  rw [ha] at hu
  exact ⟨opened, hu.trans ((starts_factor factorial size (n + 1) c).trans (starts_expression _ c))⟩

theorem starts_opens {k : Nat} {c d : Cursor} (h : Opens k c d) (n : Nat) :
    Starts (expression size (factor factorial size n) d).1
      (expression size (factor factorial size (n + 2 * k)) c).1 := by
  induction h with
  | none => exact .refl
  | @next k c c₁ d ht _ ih =>
    obtain ⟨opened, hs⟩ := starts_of_parenthesis factorial size ht (n + 2 * k)
    exact ih.trans ((starts_enclosed _ opened c₁).trans hs)

theorem starts_fault_of_opens {k n : Nat} {c d : Cursor} (h : Opens k c d) (hn : n ≤ 2 * k) :
    ∃ p, Starts (.fault (.nestedTooDeeply p)) (expression size (factor factorial size n) c).1 := by
  induction h generalizing n with
  | @none c =>
    obtain rfl : n = 0 := by omega
    exact ⟨c.position, starts_expression (factor factorial size 0) c⟩
  | @next k c c₁ d ht _ ih =>
    match n with
    | 0 => exact ⟨c.position, starts_expression (factor factorial size 0) c⟩
    | 1 => exact ⟨c.position, (starts_factor factorial size 0 c).trans (starts_expression (factor factorial size 1) c)⟩
    | n + 2 =>
      obtain ⟨p, hp⟩ := ih (n := n) (by omega)
      obtain ⟨opened, hs⟩ := starts_of_parenthesis factorial size ht n
      exact ⟨p, hp.trans ((starts_enclosed _ opened c₁).trans hs)⟩

end Readers

/-! ## (3) Whole texts -/

variable {factorial : Bool}

theorem skipBlanks_start {t : Text} (h : t.Trimmed) : (Cursor.start t).skipBlanks = Cursor.start t :=
  skipBlanks_eq (Gap.refl _) h.1

theorem read_eq {t : Text} (h : t.Trimmed) (hn : t ≠ []) :
    read factorial t =
      let (e, c) := expression t.length (factor factorial t.length depthLimit) (Cursor.start t)
      let c := c.skipBlanks
      if c.rest.isEmpty then e else .faultAfter e c.unexpected := by
  have hne : (Cursor.start t).rest.isEmpty = false := by simpa [Cursor.start] using hn
  simp only [read, skipBlanks_start h, hne, Bool.false_eq_true, if_false]

theorem starts_read (factorial : Bool) {t : Text} (h : t.Trimmed) (hn : t ≠ []) :
    Starts (expression t.length (factor factorial t.length depthLimit) (Cursor.start t)).1 (read factorial t) := by
  rw [read_eq h hn]
  dsimp only
  split
  · exact .refl
  · exact .faultAfter _ .refl

/-- Without a sign at its front a text begins with an atom. -/
theorem exists_starts_read (factorial : Bool) {t : Text} (h : t.Trimmed) (hn : t ≠ []) (hplus : t.head? ≠ some '+')
    (hminus : t.head? ≠ some '-') : ∃ f, Starts (atom t.length f (Cursor.start t)).1 (read factorial t) := by
  have not_token {x : Char} (hx : isBlank x = false) (hhead : t.head? ≠ some x) (d : Cursor) :
      ¬ Token x (Cursor.start t) d := by
    intro ht
    have hnext := ((token_iff hx).mp ht).1
    rw [skipBlanks_start h] at hnext
    exact hhead hnext
  have hunary := starts_unary factorial t.length (not_token rfl hplus) (not_token rfl hminus) 510
  have hfactor := hunary.trans (starts_factor factorial t.length 511 _)
  exact ⟨_, (hfactor.trans (starts_expression _ _)).trans (starts_read factorial h hn)⟩

end Expression

end Positional
