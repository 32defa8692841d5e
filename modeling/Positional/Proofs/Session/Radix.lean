/-
  Positional.Proofs.Session.Radix — what a session makes of bases and numbers.

  What a line means depends on the lines before it. The lines that are heard come in rounds (`Rounds`):

  - a line that is no base is a round of its own, and says why it is refused;
  - a base and the line after it, whatever it is, are a round. It ends where it began, at the question
    for a base, whether the number converts or not;
  - a base may come last, without a number.

  By induction on the rounds, each adds its row if it has one (`Rounds.after_eq`), and what is written for it is what
  its kind says (`Rounds.spoken_eq`). So a session says what its rounds say and shows their rows
  (`lines_come_in_rounds`).
-/
import Positional.Proofs.Conversion.Row
import Positional.Proofs.Session
import Positional.Session.Radix

namespace Positional.RadixSession

def basePrompt : Text := "Enter origin base (2, 8, 10, 16): ".toList

def numberPrompt (origin : Radix) : Text := "Enter number in base ".toList ++ Text.ofNat origin.base ++ ": ".toList

/-- What comes of the lines from one question for a base to the next. -/
inductive Round where
  /-- The line is no unsigned whole number below 2^32. -/
  | malformed
  /-- The number is the base of no radix. -/
  | unsupported
  /-- The number converts. -/
  | stored (origin : Radix) (row : List Text)
  | refused (origin : Radix) (error : ConversionError)

namespace Round

/-- What is written in a round, the prompts included. -/
def said : Round → Text
  | malformed => basePrompt ++ ">> Invalid input. Enter 2, 8, 10, or 16.\n\n".toList
  | unsupported => basePrompt ++ ">> Invalid base. Only bases 2, 8, 10, and 16 are allowed.\n\n".toList
  | stored origin _ => basePrompt ++ numberPrompt origin ++
      ">> Conversion stored. Enter next conversion or type 'STOP' to display results.\n\n".toList
  | refused origin e => basePrompt ++ numberPrompt origin ++ (">> Invalid input: ".toList ++ e.message ++ "\n\n".toList)

def row? : Round → Option (List Text)
  | stored _ row => some row
  | _ => none

end Round

variable (lib : Elementary) (p : Nat)

/-- Lines in rounds, and the base without a number if the lines end with one. -/
inductive Rounds : List Line → List Round → Option Radix → Prop
  | done : Rounds [] [] none
  | pending {base : Line} {origin : Radix} (hbase : Text.natBelow? (twoPow 32) base.content = some origin.base) :
      Rounds [base] [] (some origin)
  | malformed {base : Line} {lines : List Line} {rounds : List Round} {last : Option Radix}
      (hbase : Text.natBelow? (twoPow 32) base.content = none) (later : Rounds lines rounds last) :
      Rounds (base :: lines) (.malformed :: rounds) last
  | unsupported {base : Line} {lines : List Line} {rounds : List Round} {last : Option Radix} {n : Nat}
      (hbase : Text.natBelow? (twoPow 32) base.content = some n) (hn : ∀ r : Radix, n ≠ r.base)
      (later : Rounds lines rounds last) : Rounds (base :: lines) (.unsupported :: rounds) last
  | stored {base number : Line} {lines : List Line} {rounds : List Round} {last : Option Radix} {origin : Radix}
      {row : List Text} (hbase : Text.natBelow? (twoPow 32) base.content = some origin.base)
      (hrow : Conversion.inAllRadices ⟨lib, number.chance⟩ origin p number.content = .ok row)
      (later : Rounds lines rounds last) : Rounds (base :: number :: lines) (.stored origin row :: rounds) last
  | refused {base number : Line} {lines : List Line} {rounds : List Round} {last : Option Radix} {origin : Radix}
      {e : ConversionError} (hbase : Text.natBelow? (twoPow 32) base.content = some origin.base)
      (herror : Conversion.inAllRadices ⟨lib, number.chance⟩ origin p number.content = .error e)
      (later : Rounds lines rounds last) : Rounds (base :: number :: lines) (.refused origin e :: rounds) last

/-- The state in which a session ends. -/
def final (lines : List Line) : State := (dialogue lib p).final start lines

/-! ## (1) One line -/

section

variable (rows : List (List Text)) {line : Line} {origin : Radix}

theorem prompt_eq (origin : Option Radix) :
    (dialogue lib p).prompt ⟨rows, origin⟩ = origin.elim basePrompt numberPrompt := by
  cases origin <;> rfl

theorem answer_malformed (h : Text.natBelow? (twoPow 32) line.content = none) :
    (dialogue lib p).answer ⟨rows, none⟩ line.content line.chance =
      (⟨rows, none⟩, ">> Invalid input. Enter 2, 8, 10, or 16.\n\n".toList) := by
  change answerBase ⟨rows, none⟩ line.content = _
  unfold answerBase
  rw [h]

theorem answer_unsupported {n : Nat} (h : Text.natBelow? (twoPow 32) line.content = some n) (hn : ∀ r : Radix, n ≠ r.base) :
    (dialogue lib p).answer ⟨rows, none⟩ line.content line.chance =
      (⟨rows, none⟩, ">> Invalid base. Only bases 2, 8, 10, and 16 are allowed.\n\n".toList) := by
  change answerBase ⟨rows, none⟩ line.content = _
  unfold answerBase
  simp only [h]
  cases hr : Radix.ofBase n with
  | ok r => exact absurd (Radix.ofBase_eq_ok_iff.mp hr) (hn r)
  | error e => rfl

theorem answer_accepted (h : Text.natBelow? (twoPow 32) line.content = some origin.base) :
    (dialogue lib p).answer ⟨rows, none⟩ line.content line.chance = (⟨rows, some origin⟩, []) := by
  change answerBase ⟨rows, none⟩ line.content = _
  unfold answerBase
  simp only [h, Radix.ofBase_eq_ok_iff.mpr rfl]

theorem answer_stored {row : List Text} (h : Conversion.inAllRadices ⟨lib, line.chance⟩ origin p line.content = .ok row) :
    (dialogue lib p).answer ⟨rows, some origin⟩ line.content line.chance = (⟨rows ++ [row], none⟩,
      ">> Conversion stored. Enter next conversion or type 'STOP' to display results.\n\n".toList) := by
  change answerNumber ⟨lib, line.chance⟩ p rows origin line.content = _
  unfold answerNumber
  rw [h]

theorem answer_refused {e : ConversionError}
    (h : Conversion.inAllRadices ⟨lib, line.chance⟩ origin p line.content = .error e) :
    (dialogue lib p).answer ⟨rows, some origin⟩ line.content line.chance =
      (⟨rows, none⟩, ">> Invalid input: ".toList ++ e.message ++ "\n\n".toList) := by
  change answerNumber ⟨lib, line.chance⟩ p rows origin line.content = _
  unfold answerNumber
  rw [h]
  rfl

end

theorem length_row {s : Setting} {origin : Radix} {t : Text} {row : List Text}
    (h : Conversion.inAllRadices s origin p t = .ok row) : row.length = 4 := by
  obtain ⟨x, -, hrow⟩ := bind_eq_ok.mp h
  rw [← (Conversion.row_eq_ok.mp (mapError_eq_ok.mp hrow)).length_eq, (Conversion.perm_columns origin).length_eq]
  rfl

/-! ## (2) All lines -/

/-- All lines come in rounds, but for a base at their end. -/
theorem exists_rounds : ∀ lines : List Line, ∃ rounds last, Rounds lib p lines rounds last
  | [] => ⟨[], none, .done⟩
  | base :: lines => by
    obtain ⟨rounds, last, later⟩ := exists_rounds lines
    cases hbase : Text.natBelow? (twoPow 32) base.content with
    | none => exact ⟨_, _, .malformed hbase later⟩
    | some n =>
      by_cases hn : ∃ r : Radix, n = r.base
      · obtain ⟨origin, rfl⟩ := hn
        cases lines with
        | nil => exact ⟨_, _, .pending hbase⟩
        | cons number lines =>
          obtain ⟨rounds, last, later⟩ := exists_rounds lines
          cases hnumber : Conversion.inAllRadices ⟨lib, number.chance⟩ origin p number.content with
          | ok row => exact ⟨_, _, .stored hbase hnumber later⟩
          | error e => exact ⟨_, _, .refused hbase hnumber later⟩
      · exact ⟨_, _, .unsupported hbase (not_exists.mp hn) later⟩

variable {lib p}

section

variable {lines : List Line} {rounds : List Round} {last : Option Radix} (h : Rounds lib p lines rounds last)

include h

theorem Rounds.after_eq (rows : List (List Text)) :
    (dialogue lib p).after ⟨rows, none⟩ lines = ⟨rows ++ rounds.filterMap Round.row?, last⟩ := by
  induction h generalizing rows with
  | done =>
    rw [List.filterMap_nil, List.append_nil]
    rfl
  | pending hbase =>
    rw [Dialogue.after_cons, answer_accepted lib p rows hbase, List.filterMap_nil, List.append_nil]
    rfl
  | malformed hbase later ih =>
    rw [Dialogue.after_cons, answer_malformed lib p rows hbase]
    exact ih rows
  | unsupported hbase hn later ih =>
    rw [Dialogue.after_cons, answer_unsupported lib p rows hbase hn]
    exact ih rows
  | stored hbase hrow later ih =>
    rw [Dialogue.after_cons, answer_accepted lib p rows hbase, Dialogue.after_cons, answer_stored lib p rows hrow, ih,
      List.append_assoc]
    rfl
  | refused hbase herror later ih =>
    rw [Dialogue.after_cons, answer_accepted lib p rows hbase, Dialogue.after_cons, answer_refused lib p rows herror]
    exact ih rows

/-- What is written for rounds, up to the prompt for the line that follows. -/
theorem Rounds.spoken_eq (rows : List (List Text)) :
    (dialogue lib p).spoken ⟨rows, none⟩ lines ++ last.elim basePrompt numberPrompt =
      rounds.flatMap Round.said ++ basePrompt ++ last.elim [] numberPrompt := by
  induction h generalizing rows with
  | done => exact (List.append_nil _).symm
  | pending hbase =>
    rw [Dialogue.spoken_cons, answer_accepted lib p rows hbase, prompt_eq]
    simp only [Dialogue.spoken, Option.elim, List.flatMap_nil, List.append_nil, List.nil_append]
  | malformed hbase later ih =>
    rw [Dialogue.spoken_cons, answer_malformed lib p rows hbase, prompt_eq, List.append_assoc, ih rows]
    simp only [List.flatMap_cons, Round.said, Option.elim, List.append_assoc]
  | unsupported hbase hn later ih =>
    rw [Dialogue.spoken_cons, answer_unsupported lib p rows hbase hn, prompt_eq, List.append_assoc, ih rows]
    simp only [List.flatMap_cons, Round.said, Option.elim, List.append_assoc]
  | @stored _ _ _ _ _ _ row hbase hrow later ih =>
    rw [Dialogue.spoken_cons, answer_accepted lib p rows hbase, prompt_eq, Dialogue.spoken_cons,
      answer_stored lib p rows hrow, prompt_eq]
    simp only [List.append_assoc, ih (rows ++ [row])]
    simp only [List.flatMap_cons, Round.said, Option.elim, List.append_assoc, List.nil_append]
  | refused hbase herror later ih =>
    rw [Dialogue.spoken_cons, answer_accepted lib p rows hbase, prompt_eq, Dialogue.spoken_cons,
      answer_refused lib p rows herror, prompt_eq]
    simp only [List.append_assoc, ih rows]
    simp only [List.flatMap_cons, Round.said, Option.elim, List.append_assoc, List.nil_append]

theorem Rounds.length_row : ∀ row ∈ rounds.filterMap Round.row?, row.length = 4 := by
  induction h with
  | done | pending => exact fun row hrow => absurd hrow List.not_mem_nil
  | malformed _ _ ih | unsupported _ _ _ ih | refused _ _ _ ih =>
    rwa [List.filterMap_cons_none rfl]
  | stored _ hrow _ ih =>
    exact List.forall_mem_cons.mpr ⟨RadixSession.length_row p hrow, ih⟩

end

theorem Rounds.final_eq {lines : List Line} {rounds : List Round} {last : Option Radix}
    (h : Rounds lib p (heard lines) rounds last) : final lib p lines = ⟨rounds.filterMap Round.row?, last⟩ :=
  h.after_eq []

theorem Rounds.run_eq {lines : List Line} {rounds : List Round} {last : Option Radix}
    (h : Rounds lib p (heard lines) rounds last) (htext : ∀ line ∈ lines, line.text.isSome = true) :
    ∃ table, Results headers (rounds.filterMap Round.row?) table ∧ run lib p lines =
      ⟨rounds.flatMap Round.said ++ basePrompt ++ last.elim [] numberPrompt ++ table, none⟩ := by
  have hspoken := h.spoken_eq []
  have hconclusion : (dialogue lib p).conclusion (final lib p lines) =
      conversionTable headers (rounds.filterMap Round.row?) := by
    rw [h.final_eq]
    rfl
  obtain ⟨table, htable, hconclude⟩ := Dialogue.conclude_rows hconclusion h.length_row
  refine ⟨table, htable, ?_⟩
  rw [run, Dialogue.run_eq _ _ htext, ← final, hconclude, h.final_eq, prompt_eq]
  exact congrArg (fun t => Transcript.mk (t ++ table) none) hspoken

end Positional.RadixSession
