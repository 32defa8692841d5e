/-
  Positional.Table — rows of cells as aligned text.

  Every column is two characters wider than its longest cell, the header's included, and cells
  stand at its left. One space separates columns, and an empty line precedes the header and
  follows the last row. Every row must have a cell for every column.
-/
import Positional.Text

namespace Positional

/-- The first row, counted from zero, that does not have one cell for each column. -/
structure TableError where
  row : Nat
  cells : Nat
  columns : Nat
  deriving DecidableEq

def TableError.message (e : TableError) : Text :=
  "Row ".toList ++ Text.ofNat e.row ++ " has ".toList ++ Text.ofNat e.cells ++
    " cells but the table has ".toList ++ Text.ofNat e.columns ++ " columns".toList

namespace Table

/-- What a column is wider than its longest cell. -/
def margin : Nat := 2

def columnWidth (lines : List (List Text)) (column : Nat) : Nat :=
  (lines.map fun cells => (cells.getD column []).length).foldr max 0 + margin

def widths (headers : List Text) (rows : List (List Text)) : List Nat :=
  (List.range headers.length).map (columnWidth (headers :: rows))

def cell (content : Text) (width : Nat) : Text := content ++ List.replicate (width - content.length) ' '

def line (widths : List Nat) (cells : List Text) : Text :=
  Text.joined [' '] (List.zipWith cell cells widths) ++ ['\n']

def misfit? (columns : Nat) (rows : List (List Text)) : Option TableError :=
  (rows.zipIdx.find? fun (cells, _) => cells.length != columns).map fun (cells, row) =>
    ⟨row, cells.length, columns⟩

theorem misfit?_eq_none_iff {columns : Nat} {rows : List (List Text)} :
    misfit? columns rows = none ↔ ∀ row ∈ rows, row.length = columns := by
  rw [misfit?, Option.map_eq_none_iff, List.find?_eq_none]
  constructor
  · intro h row hrow
    obtain ⟨i, hi, rfl⟩ := List.getElem_of_mem hrow
    simpa using h (rows[i], i) (List.mem_zipIdx_iff_getElem?.mpr (List.getElem?_eq_getElem hi))
  · intro h (row, i) hrow
    simpa using h row (List.mem_of_getElem? (List.mem_zipIdx_iff_getElem?.mp hrow))

def layout (headers : List Text) (rows : List (List Text)) : Except TableError Text :=
  match misfit? headers.length rows with
  | some e => .error e
  | none => .ok ('\n' :: (headers :: rows).flatMap (line (widths headers rows)) ++ ['\n'])

end Table

end Positional
