/-
  Positional.Proofs.Text.Joined — texts that are written together.

  Cells with separators between them can be told from the whole, if the cells of one of two wholes have no
  blanks (`joined_equals_inj`): cells with blanks would make for more of them than the separators have.
  A failure's cause can be told from its report, since each of its lines is indented alike
  (`report_inj`).
-/
import Positional.Failure
import Positional.Proofs.Text.Cuts

namespace Positional

/-! ## (1) Cells -/

namespace Text

theorem count_joined_equals (t : Text) (ts : List Text) :
    (joined " = ".toList (t :: ts)).count ' ' = (t :: ts).flatten.count ' ' + 2 * ts.length := by
  induction ts generalizing t with
  | nil =>
    rw [joined, List.intercalate_singleton, List.flatten_singleton]
    rfl
  | cons u ts ih =>
    have hseparator : " = ".toList.count ' ' = 2 := by decide
    have hrest := ih u
    rw [joined] at hrest ⊢
    rw [List.intercalate_cons_cons, List.count_append, List.count_append, hseparator, hrest, List.flatten_cons (l := t),
      List.count_append, List.length_cons]
    omega

theorem joined_equals_inj_of_notMem {ts us : List Text} (hlen : ts.length = us.length) (hts : ∀ t ∈ ts, ' ' ∉ t)
    (hus : ∀ u ∈ us, ' ' ∉ u) (h : joined " = ".toList ts = joined " = ".toList us) : ts = us := by
  induction ts generalizing us with
  | nil => exact (List.eq_nil_of_length_eq_zero hlen.symm).symm
  | cons t ts ih =>
    obtain ⟨u, us, rfl⟩ := List.exists_cons_of_length_eq_add_one hlen.symm
    rw [List.length_cons, List.length_cons, Nat.add_right_cancel_iff] at hlen
    rw [List.forall_mem_cons] at hts hus
    cases ts with
    | nil =>
      obtain rfl := List.eq_nil_of_length_eq_zero hlen.symm
      rw [joined, joined, List.intercalate_singleton, List.intercalate_singleton] at h
      rw [h]
    | cons t' ts =>
      obtain ⟨u', us, rfl⟩ := List.exists_cons_of_length_eq_add_one hlen.symm
      have hcut (v v' : Text) (vs : List Text) (hv : ' ' ∉ v) : cutAt? ' ' (joined " = ".toList (v :: v' :: vs)) =
          some (v, ['=', ' '] ++ joined " = ".toList (v' :: vs)) := by
        rw [joined, List.intercalate_cons_cons, List.append_assoc]
        exact cutAt?_append hv _
      have hcuts := congrArg (cutAt? ' ') h
      rw [hcut t t' ts hts.1, hcut u u' us hus.1, Option.some_inj, Prod.mk.injEq, List.append_cancel_left_eq] at hcuts
      rw [hcuts.1, ih hlen hts.2 hus.2 hcuts.2]

/-- Cells with blanks would make for more blanks than those of the separators. -/
theorem joined_equals_inj {ts us : List Text} (hlen : ts.length = us.length) (hus : ∀ u ∈ us, ' ' ∉ u)
    (h : joined " = ".toList ts = joined " = ".toList us) : ts = us := by
  refine joined_equals_inj_of_notMem hlen (fun t ht hblank => ?_) hus h
  have hnone : us.flatten.count ' ' = 0 := by
    rw [List.count_eq_zero, List.mem_flatten]
    exact fun ⟨u, hu, hm⟩ => hus u hu hm
  have hsome : 0 < ts.flatten.count ' ' := List.count_pos_iff.mpr (List.mem_flatten.mpr ⟨t, ht, hblank⟩)
  have hcount := congrArg (List.count ' ') h
  obtain ⟨t, ts, rfl⟩ := List.exists_cons_of_ne_nil (List.ne_nil_of_mem ht)
  obtain ⟨u, us, rfl⟩ := List.exists_cons_of_length_eq_add_one hlen.symm
  rw [List.length_cons, List.length_cons] at hlen
  rw [count_joined_equals, count_joined_equals] at hcount
  omega

theorem notMem_of_mem_splitOn {x : Char} {t piece : Text} (h : piece ∈ t.splitOn x) : x ∉ piece := by
  induction t generalizing piece with
  | nil =>
    rw [List.splitOn_nil, List.mem_singleton] at h
    exact h ▸ List.not_mem_nil
  | cons c t ih =>
    obtain ⟨first, pieces, hpieces⟩ := List.exists_cons_of_ne_nil (List.splitOn_ne_nil x t)
    rw [hpieces] at ih
    rw [List.splitOn_cons_eq_if_modifyHead, hpieces, List.modifyHead_cons] at h
    split at h
    · rcases List.mem_cons.mp h with rfl | h
      · exact List.not_mem_nil
      · exact ih h
    · rename_i hc
      rcases List.mem_cons.mp h with rfl | h
      · rw [List.mem_cons, not_or]
        exact ⟨fun he => hc (by rw [he, beq_self_eq_true]), ih List.mem_cons_self⟩
      · exact ih (List.mem_cons_of_mem first h)

end Text

/-! ## (2) Causes of failures -/

namespace Failure

theorem splitOn_indented (t : Text) : (indented t).splitOn '\n' = (t.splitOn '\n').map (indentation ++ ·) := by
  have hlines : ∀ line ∈ (t.splitOn '\n').map (indentation ++ ·), '\n' ∉ line := by
    intro line hline
    obtain ⟨piece, hpiece, rfl⟩ := List.mem_map.mp hline
    rw [List.mem_append, not_or]
    exact ⟨by decide, Text.notMem_of_mem_splitOn hpiece⟩
  exact List.splitOn_intercalate '\n' hlines (by simp)

theorem indented_inj {t u : Text} (h : indented t = indented u) : t = u := by
  have hlines := congrArg (List.splitOn '\n') h
  rw [splitOn_indented, splitOn_indented, List.map_inj_right fun _ _ => List.append_cancel_left] at hlines
  calc t = ['\n'].intercalate (t.splitOn '\n') := (List.intercalate_splitOn '\n').symm
    _ = ['\n'].intercalate (u.splitOn '\n') := by rw [hlines]
    _ = u := List.intercalate_splitOn '\n'

theorem report_inj {summary cause cause' : Text} (h : report ⟨summary, some cause⟩ = report ⟨summary, some cause'⟩) :
    cause = cause' := by
  unfold report at h
  have hcauses := List.append_cancel_left (List.append_cancel_right h)
  exact indented_inj (List.append_cancel_left hcauses)

end Failure

end Positional
