/-
  Positional.Session — dialogues over lines of input.

  A session writes a prompt, reads a line, answers it, and so on. It ends at the end of the
  input or at the first line that spells STOP in any letter case, blanks around it aside, and
  then writes what it concludes from its state. A line that is no text ends it too, with a
  failure and without a conclusion. Nothing after the line that ends a session matters
  (`run_stop`, `run_unreadable`).

  A line brings the draws of its own random constants.
-/
import Positional.Expression.Chance
import Positional.Failure
import Positional.Table

namespace Positional

/-- A line of input; its text is `none` if its bytes are not UTF-8. -/
structure Line where
  text : Option Text
  chance : Chance

inductive SessionError where
  | unreadable
  | table (error : TableError)
  deriving DecidableEq

def SessionError.failure : SessionError → Failure
  | unreadable => ⟨"Failed to read input".toList, some "stream did not contain valid UTF-8".toList⟩
  | table e => ⟨e.message, none⟩

/-- What a session has written, and why it failed if it did. -/
structure Transcript where
  output : Text
  failure : Option SessionError
  deriving DecidableEq

/-- A session with states in `σ`. Lines are answered without the blanks around them. -/
structure Dialogue (σ : Type) where
  prompt : σ → Text
  answer : σ → Text → Chance → σ × Text
  conclusion : σ → Except TableError Text

namespace Dialogue

variable {σ : Type} (d : Dialogue σ)

def isStop (t : Text) : Bool := t.map Char.toLower == "stop".toList

/-- What comes of one line, after the prompt for it. -/
inductive Reply (σ : Type) where
  | proceed (state : σ) (said : Text)
  | conclude
  | fail (error : SessionError)

def reply (state : σ) (line : Line) : Reply σ :=
  match line.text with
  | none => .fail .unreadable
  | some t =>
    if isStop t.trim then .conclude
    else
      let (state, said) := d.answer state t.trim line.chance
      .proceed state said

def conclude (state : σ) : Transcript :=
  match d.conclusion state with
  | .ok t => ⟨t, none⟩
  | .error e => ⟨[], some (.table e)⟩

def run (state : σ) : List Line → Transcript
  | [] =>
    let last := d.conclude state
    { last with output := d.prompt state ++ last.output }
  | line :: lines =>
    match d.reply state line with
    | .proceed next said =>
      let later := run next lines
      { later with output := d.prompt state ++ said ++ later.output }
    | .conclude =>
      let last := d.conclude state
      { last with output := d.prompt state ++ last.output }
    | .fail e => ⟨d.prompt state, some e⟩

theorem run_stop {state : σ} {line : Line} (h : d.reply state line = .conclude) (lines : List Line) :
    d.run state (line :: lines) = d.run state [] := by
  simp only [run, h]

theorem run_unreadable {line : Line} (h : line.text = none) (state : σ) (lines : List Line) :
    d.run state (line :: lines) = ⟨d.prompt state, some .unreadable⟩ := by
  simp only [run, reply, h]

end Dialogue

/-- The end of a session of conversions: their table, or a line that says there is none. -/
def conversionTable (headers : List Text) (rows : List (List Text)) : Except TableError Text :=
  if rows.isEmpty then .ok "No conversions to display.\n".toList else Table.layout headers rows

def invalidInput (message : Text) : Text := ">> Invalid input: ".toList ++ message ++ "\n\n".toList

end Positional
