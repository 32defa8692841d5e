/-
  Positional.Proofs.Table — rows stand in columns.

  A line is its cells, each filled with spaces to the width of its column, and a space between
  two. So dropping what lies before a column leaves the line of the columns from there on
  (`drop_filled`), and what is in a column is seen at the front of that (`inColumns_filled`). As every
  width has room for all cells of its column, none is cut, and all lines are equally long.

  A table is refused for its first row that has too few or too many cells, and for nothing else
  (`layout_in_columns`).
-/
import Mathlib.Algebra.GroupWithZero.Nat
import Mathlib.Data.List.MinMax
import Mathlib.Order.Nat
import Positional.Proofs.Answer
import Positional.Table

namespace Positional.Table

/-! ## (1) Columns -/

/-- Among these lines column `j` is two characters wider than its longest cell. -/
structure IsWidth (lines : List (List Text)) (j w : Nat) : Prop where
  room : ∀ cells ∈ lines, ∀ c, cells[j]? = some c → c.length + 2 ≤ w
  attained : ∃ cells ∈ lines, ∃ c, cells[j]? = some c ∧ c.length + 2 = w

/-- Where column `j` starts: after the columns before it and a space for each. -/
def offset (ws : List Nat) (j : Nat) : Nat := ((ws.take j).map (· + 1)).sum

/-- The cells stand in columns of these widths. -/
structure InColumns (ws : List Nat) (cells : List Text) (t : Text) : Prop where
  length : t.length = ws.sum + (ws.length - 1)
  cell : ∀ j w c, ws[j]? = some w → cells[j]? = some c →
    c.length + 2 ≤ w ∧ (t.drop (offset ws j)).take w = c ++ List.replicate (w - c.length) ' '
  separator : ∀ j w, ws[j]? = some w → j + 1 < ws.length → t[offset ws j + w]? = some ' '

/-- The first row that does not have a cell for each column. -/
def FirstMisfit (columns : Nat) (rows : List (List Text)) (e : TableError) : Prop :=
  ∃ before row after, rows = before ++ row :: after ∧ (∀ cells ∈ before, cells.length = columns) ∧
    row.length ≠ columns ∧ e = ⟨before.length, row.length, columns⟩

/-- Every cell has room in its column. -/
def Fits (ws : List Nat) (cells : List Text) : Prop := List.Forall₂ (fun w c => c.length + 2 ≤ w) ws cells

/-! ## (2) One line -/

theorem offset_succ (w : Nat) (ws : List Nat) (j : Nat) : offset (w :: ws) (j + 1) = w + 1 + offset ws j := rfl

theorem length_cell {c : Text} {w : Nat} (h : c.length ≤ w) : (cell c w).length = w := by
  rw [cell, List.length_append, List.length_replicate, Nat.add_sub_cancel' h]

/-- The cells of a line, filled up and with spaces between them. -/
def filled (ws : List Nat) (cells : List Text) : Text := Text.joined [' '] (List.zipWith cell cells ws)

theorem filled_single (w : Nat) (c : Text) : filled [w] [c] = cell c w := by
  rw [filled, List.zipWith_cons_cons, List.zipWith_nil_left, Text.joined, List.intercalate_singleton]

theorem filled_cons (w v : Nat) (ws : List Nat) (c d : Text) (cells : List Text) :
    filled (w :: v :: ws) (c :: d :: cells) = cell c w ++ ' ' :: filled (v :: ws) (d :: cells) := by
  rw [filled, List.zipWith_cons_cons, List.zipWith_cons_cons, Text.joined, List.intercalate_cons_cons, List.append_assoc]
  rfl

section Line

variable {ws : List Nat} {cells : List Text}

/-- The first cell fills its column, and a space follows if there is another. -/
theorem filled_eq {w : Nat} {c : Text} (h : Fits ws cells) : ∃ after, filled (w :: ws) (c :: cells) = cell c w ++ after ∧
    (ws = [] → after = []) ∧ (ws ≠ [] → after = ' ' :: filled ws cells) := by
  cases h with
  | nil => exact ⟨[], by rw [filled_single, List.append_nil], fun _ => rfl, fun h => absurd rfl h⟩
  | cons => exact ⟨_, filled_cons _ _ _ _ _ _, fun h => (nomatch h), fun _ => rfl⟩

theorem length_filled (h : Fits ws cells) : (filled ws cells).length = ws.sum + (ws.length - 1) := by
  induction h with
  | nil => rfl
  | @cons w c ws cells hw h ih =>
    obtain ⟨after, heq, hnil, hcons⟩ := filled_eq (w := w) (c := c) h
    rw [heq, List.length_append, length_cell (by omega), List.sum_cons, List.length_cons]
    cases ws with
    | nil =>
      rw [hnil rfl]
      rfl
    | cons v ws =>
      rw [hcons (List.cons_ne_nil v ws), List.length_cons, ih, List.length_cons]
      omega

/-- Without what lies before a column, a line is that of the columns from there on. -/
theorem drop_filled (h : Fits ws cells) (j : Nat) :
    (filled ws cells).drop (offset ws j) = filled (ws.drop j) (cells.drop j) := by
  induction h generalizing j with
  | nil => simp [filled, Text.joined, List.intercalate]
  | @cons w c ws cells hw h ih =>
    cases j with
    | zero => rfl
    | succ j =>
      obtain ⟨after, heq, hnil, hcons⟩ := filled_eq (w := w) (c := c) h
      have hoffset : offset (w :: ws) (j + 1) = (cell c w).length + (offset ws j + 1) := by
        rw [offset_succ, length_cell (by omega)]
        omega
      rw [hoffset, heq, List.drop_length_add_append, List.drop_succ_cons, List.drop_succ_cons, ← ih]
      by_cases hws : ws = []
      · subst hws
        cases h
        rw [hnil rfl]
        simp [filled, Text.joined, List.intercalate]
      · rw [hcons hws, List.drop_succ_cons]

theorem inColumns_filled (h : Fits ws cells) : InColumns ws cells (filled ws cells) := by
  -- what stands from a column on begins with its cell
  have front {j w : Nat} {c : Text} (hw : ws[j]? = some w) (hc : cells[j]? = some c) : c.length + 2 ≤ w ∧ ∃ after,
      (filled ws cells).drop (offset ws j) = cell c w ++ after ∧ (j + 1 < ws.length → after.head? = some ' ') := by
    obtain ⟨hj, rfl⟩ := List.getElem?_eq_some_iff.mp hw
    obtain ⟨hj', rfl⟩ := List.getElem?_eq_some_iff.mp hc
    have hfits : Fits (ws.drop (j + 1)) (cells.drop (j + 1)) := List.forall₂_drop _ h
    obtain ⟨after, heq, -, hcons⟩ := filled_eq (w := ws[j]) (c := cells[j]) hfits
    refine ⟨(List.forall₂_iff_get.mp h).2 j hj hj', after, ?_, fun hlt => ?_⟩
    · rw [drop_filled h, List.drop_eq_getElem_cons hj, List.drop_eq_getElem_cons hj', heq]
    · rw [hcons (by simpa using hlt)]
      rfl
  refine ⟨length_filled h, fun j w c hw hc => ?_, fun j w hw hlt => ?_⟩
  · obtain ⟨hroom, after, heq, -⟩ := front hw hc
    exact ⟨hroom, by rw [heq, List.take_left' (length_cell (by omega)), cell]⟩
  · have hj : j < cells.length := by rw [← h.length_eq]; omega
    obtain ⟨hroom, after, heq, hnext⟩ := front hw (List.getElem?_eq_getElem hj)
    have hafter := congrArg (·[w]?) heq
    simp only [List.getElem?_drop] at hafter
    rw [hafter, List.getElem?_append_right (by rw [length_cell (by omega)]), length_cell (by omega), Nat.sub_self,
      ← List.head?_eq_getElem?]
    exact hnext hlt

end Line

/-! ## (3) Widths -/

theorem length_widths (headers : List Text) (rows : List (List Text)) : (widths headers rows).length = headers.length := by
  rw [widths, List.length_map, List.length_range]

section Widths

variable {headers : List Text} {rows : List (List Text)} (h : ∀ cells ∈ headers :: rows, cells.length = headers.length)

include h

theorem isWidth_widths {j w : Nat} (hw : (widths headers rows)[j]? = some w) : IsWidth (headers :: rows) j w := by
  rw [widths, List.getElem?_map, Option.map_eq_some_iff] at hw
  obtain ⟨i, hi, rfl⟩ := hw
  obtain ⟨hj, rfl⟩ := List.getElem?_eq_some_iff.mp hi
  rw [List.length_range] at hj
  rw [List.getElem_range]
  set lengths := (headers :: rows).map fun cells => (cells.getD j []).length
  have hlongest : lengths.foldr max ⊥ ∈ lengths :=
    List.maximum_mem (List.foldr_max_of_ne_nil (List.cons_ne_nil _ _)).symm
  refine ⟨fun cells hm c hc => ?_, ?_⟩
  · have hlength : c.length ∈ lengths :=
      List.mem_map.mpr ⟨cells, hm, by rw [List.getD_eq_getElem?_getD, hc, Option.getD_some]⟩
    exact Nat.add_le_add_right (List.le_max_of_le hlength (Nat.le_refl _)) 2
  · obtain ⟨cells, hm, hlength⟩ := List.mem_map.mp hlongest
    have hcells : j < cells.length := by rwa [h cells hm]
    have hc : cells[j]? = some cells[j] := List.getElem?_eq_getElem hcells
    rw [List.getD_eq_getElem?_getD, hc, Option.getD_some] at hlength
    exact ⟨cells, hm, _, hc, congrArg (· + 2) hlength⟩

theorem fits_widths {cells : List Text} (hm : cells ∈ headers :: rows) : Fits (widths headers rows) cells := by
  refine List.forall₂_iff_get.mpr ⟨by rw [length_widths, h cells hm], fun j hj hj' => ?_⟩
  exact (isWidth_widths h (List.getElem?_eq_getElem hj)).room cells hm _ (List.getElem?_eq_getElem hj')

end Widths

/-! ## (4) Tables -/

theorem misfit?_eq_some {columns : Nat} {rows : List (List Text)} {e : TableError} (h : misfit? columns rows = some e) :
    FirstMisfit columns rows e := by
  rw [misfit?, Option.map_eq_some_iff] at h
  obtain ⟨⟨row, i⟩, hfind, rfl⟩ := h
  obtain ⟨hrow, before, after, hsplit, hbefore⟩ := List.find?_eq_some_iff_append.mp hfind
  obtain ⟨first, rest, rfl, rfl, hrest⟩ := List.zipIdx_eq_append_iff.mp hsplit
  rw [Nat.zero_add] at hrest
  obtain ⟨rest', hrest'⟩ : ∃ rest', rest = row :: rest' ∧ i = first.length := by
    cases rest with
    | nil => cases hrest
    | cons x rest =>
      rw [List.zipIdx_cons, List.cons.injEq, Prod.mk.injEq] at hrest
      exact ⟨rest, by rw [hrest.1.1], hrest.1.2⟩
  obtain ⟨rfl, rfl⟩ := hrest'
  refine ⟨first, row, rest', rfl, fun cells hm => ?_, by simpa using hrow, rfl⟩
  obtain ⟨k, hk, rfl⟩ := List.getElem_of_mem hm
  simpa using hbefore (first[k], k) (List.mem_zipIdx_iff_getElem?.mpr (List.getElem?_eq_getElem hk))

/-- A table is refused exactly if some row does not have a cell for each column, and for the first such row. Otherwise the
headers and the rows stand in order, each on a line of its own between two empty ones, in columns two characters wider
than their longest cells. -/
theorem layout_in_columns (headers : List Text) (rows : List (List Text)) :
    (∃ e, layout headers rows = .error e ∧ FirstMisfit headers.length rows e) ∨
    (∀ row ∈ rows, row.length = headers.length) ∧ ∃ ws lines, ws.length = headers.length ∧
      (∀ j w, ws[j]? = some w → IsWidth (headers :: rows) j w) ∧
      List.Forall₂ (InColumns ws) (headers :: rows) lines ∧
      layout headers rows = .ok ('\n' :: lines.flatMap (· ++ ['\n']) ++ ['\n']) := by
  unfold layout
  cases hmisfit : misfit? headers.length rows with
  | some e => exact Or.inl ⟨e, rfl, misfit?_eq_some hmisfit⟩
  | none =>
    have h := misfit?_eq_none_iff.mp hmisfit
    have hlines : ∀ cells ∈ headers :: rows, cells.length = headers.length := List.forall_mem_cons.mpr ⟨rfl, h⟩
    refine Or.inr ⟨h, widths headers rows, (headers :: rows).map (filled (widths headers rows)),
      length_widths headers rows, fun j w => isWidth_widths hlines, ?_, ?_⟩
    · rw [List.forall₂_map_right_iff, List.forall₂_same]
      exact fun cells hm => inColumns_filled (fits_widths hlines hm)
    · rw [List.flatMap_map]
      rfl

/-- Characters are counted, of whatever size in bytes. -/
example : layout ["n".toList, "µ".toList] [["10".toList, "½".toList]] =
    .ok "\nn    µ  \n10   ½  \n\n".toList := by decide

end Positional.Table
