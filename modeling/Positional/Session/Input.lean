/-
  Positional.Session.Input — bytes as lines.

  A line ends at a newline byte, the last one also at the end of the bytes. Its text is what
  its bytes spell in UTF-8; a line that spells nothing is found only when it is its turn.
-/
import Positional.Session

namespace Positional

/-- The bytes of each line, without the newline. -/
def lineBytes (bytes : ByteArray) : List (List UInt8) :=
  let pieces := bytes.toList.splitOnP (· == 10)
  if pieces.getLast? = some [] then pieces.dropLast else pieces

def decodeLine (bytes : List UInt8) : Option Text := (String.fromUTF8? ⟨bytes.toArray⟩).map String.toList

/-- The lines of the input, with the draws for each. -/
def Line.ofBytes (chance : Nat → Chance) (bytes : ByteArray) : List Line :=
  (lineBytes bytes).zipIdx.map fun (line, index) => ⟨decodeLine line, chance index⟩

end Positional
