/-
  Positional.Main — the program.

  It asks `CommandLine.task` what there is to do. A session is held line by line with the
  replies of its dialogue, so that a prompt is written before its line is read.
-/
import Positional.CommandLine
import Positional.Session.Input
import Positional.Expression.Machine

namespace Positional

def write (stream : IO.FS.Stream) (t : Text) : IO Unit := do
  stream.putStr (String.ofList t)
  stream.flush

/-- The bytes of the next line without its newline, or nothing at the end of the input. -/
partial def nextLine? (input : IO.FS.Stream) (before : Array UInt8) : IO (Option (List UInt8)) := do
  let bytes ← input.read 1
  match bytes.toList with
  | byte :: _ => if byte == 10 then return some before.toList else nextLine? input (before.push byte)
  | [] => return if before.isEmpty then none else some before.toList

def newChance : IO Chance := return .ofSeed (← IO.rand 0 (twoPow 64 - 1))

/-- Writes the rest of a transcript and gives the exit code. -/
def report (o : CommandLine.Outcome) : IO UInt32 := do
  write (← IO.getStdout) o.output
  write (← IO.getStderr) o.errors
  return UInt32.ofNat o.exit

partial def hold {σ : Type} (d : Dialogue σ) (state : σ) : IO UInt32 := do
  write (← IO.getStdout) (d.prompt state)
  match ← nextLine? (← IO.getStdin) #[] with
  | none => report (.ofTranscript (d.conclude state))
  | some bytes =>
    match d.reply state ⟨decodeLine bytes, ← newChance⟩ with
    | .proceed next said => do
      write (← IO.getStdout) said
      hold d next
    | .conclude => report (.ofTranscript (d.conclude state))
    | .fail e => report (.ofTranscript ⟨[], some e⟩)

end Positional

open Positional in
def main (args : List String) : IO UInt32 := do
  match CommandLine.task ⟨.machine, ← newChance⟩ (args.map String.toList) with
  | .report outcome => report outcome
  | .binarySession precision => hold (BinarySession.dialogue .machine precision) BinarySession.start
  | .radixSession precision => hold (RadixSession.dialogue .machine precision) RadixSession.start
