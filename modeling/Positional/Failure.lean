/-
  Positional.Failure — failures as they are reported.

  A failure says what could not be done and, if there is one, the cause. Its `message` is one
  line, `report` the form for the error stream; there a cause of several lines keeps them,
  indented like the first.
-/
import Positional.Text

namespace Positional

structure Failure where
  summary : Text
  cause : Option Text
  deriving DecidableEq

namespace Failure

def message (f : Failure) : Text :=
  match f.cause with
  | none => f.summary
  | some cause => f.summary ++ ": ".toList ++ cause

def indentation : Text := "    ".toList

def indented (t : Text) : Text := (t.splitOnP (· == '\n')).map (indentation ++ ·) |> Text.joined ['\n']

def report (f : Failure) : Text :=
  let cause := match f.cause with
    | none => []
    | some cause => "\n\nCaused by:\n".toList ++ indented cause
  "Error: ".toList ++ f.summary ++ cause ++ ['\n']

end Failure

end Positional
