/-
  Positional.Proofs.Session.Unreadable — lines whose bytes are no text.

  Lines are decoded one at a time, so a line that is no text is found when it is its turn. The session
  then fails right after the prompt for it: it has written what it writes for the lines before, less the
  end of the session, and neither a table nor the line that says there is none (`BreaksOff`). A session
  that is stopped before never gets to see the line (`unreadable_line_breaks_off`).

  This is so of every dialogue that ends with its rows (`Dialogue.breaksOff`); of the two sessions it
  remains to say that their rows fit.
-/
import Positional.Proofs.Session.Binary
import Positional.Proofs.Session.Input
import Positional.Proofs.Session.Radix

namespace Positional

namespace Dialogue

variable {σ : Type} {d : Dialogue σ} {state : σ} {headers : List Text} {rows : σ → List (List Text)}

/-- What comes of these lines if those before the first that is no text are `before`. -/
structure BreaksOff (d : Dialogue σ) (state : σ) (headers : List Text) (rows : σ → List (List Text))
    (lines before : List Line) : Prop where
  /-- The session fails where it would show its rows if its input ended there. -/
  unreadable : (∀ line ∈ before, line.isStop = false) → ∃ said shown,
    Results headers (rows (d.after state before)) shown ∧
    d.run state before = ⟨said ++ d.prompt (d.after state before) ++ shown, none⟩ ∧
    d.run state lines = ⟨said ++ d.prompt (d.after state before), some .unreadable⟩
  /-- If it is stopped before, it ends well and as if there were nothing else to read. -/
  stopped : (∃ line ∈ before, line.isStop = true) →
    d.run state lines = d.run state before ∧ (d.run state lines).failure = none

variable {before : List Line}

theorem run_broken (h : ∀ line ∈ before, line.Answered) {bad : Line} (hbad : bad.text = none) (after : List Line) :
    d.run state (before ++ bad :: after) =
      ⟨d.spoken state before ++ d.prompt (d.after state before), some .unreadable⟩ := by
  rw [d.run_append state h, d.run_unreadable hbad]

theorem run_append_of_stop (h : ∃ line ∈ before, line.isStop = true) (rest : List Line) :
    d.run state (before ++ rest) = d.run state before := by
  obtain ⟨line, hline, hstop⟩ := h
  obtain ⟨first, others, rfl⟩ := List.append_of_mem hline
  rw [List.append_assoc, List.cons_append, d.run_cut state hstop, d.run_cut state hstop]

/-- Where the rows that are shown at the end fit, all the difference is in the end. -/
theorem breaksOff (hconclusion : ∀ state, d.conclusion state = conversionTable headers (rows state))
    (hfit : ∀ lines, ∀ row ∈ rows (d.after state lines), row.length = headers.length)
    (htext : ∀ line ∈ before, line.text.isSome = true) {bad : Line} (hbad : bad.text = none) (after : List Line) :
    d.BreaksOff state headers rows (before ++ bad :: after) before where
  unreadable hproceeds := by
    have hanswered : ∀ line ∈ before, line.Answered := fun line hl => ⟨htext line hl, hproceeds line hl⟩
    obtain ⟨shown, hshown, hconclude⟩ := conclude_rows (hconclusion (d.after state before)) (hfit before)
    refine ⟨d.spoken state before, shown, hshown, ?_, run_broken hanswered hbad after⟩
    rw [d.run_eq state htext, final, heard_of_answered hanswered, hconclude]
  stopped hstop := by
    obtain ⟨shown, -, hconclude⟩ := conclude_rows (hconclusion (d.final state before)) (hfit (heard before))
    refine ⟨run_append_of_stop hstop _, ?_⟩
    rw [run_append_of_stop hstop, d.run_eq state htext, hconclude]

end Dialogue

theorem BinarySession.length_after (lib : Elementary) (p : Nat) (lines : List Line) :
    ∀ row ∈ (dialogue lib p).after start lines, row.length = 2 := by
  intro row hrow
  rw [after_eq, start, List.nil_append] at hrow
  obtain ⟨line, -, hline⟩ := List.mem_filterMap.mp hrow
  exact length_row lib p hline

theorem RadixSession.length_after (lib : Elementary) (p : Nat) (lines : List Line) :
    ∀ row ∈ ((dialogue lib p).after start lines).rows, row.length = 4 := by
  obtain ⟨rounds, last, hrounds⟩ := exists_rounds lib p lines
  rw [start, hrounds.after_eq, List.nil_append]
  exact hrounds.length_row

/-- The first line that is no text ends either session with a failure and without its rows, and with the prompt for this
line as the last that is written, unless a line before stops the session: then it has no effect. -/
theorem unreadable_line_breaks_off (lib : Elementary) (p : Nat) {chance : Nat → Chance} {bytes : ByteArray}
    {before after : List Line} {bad : Line} (h : Line.ofBytes chance bytes = before ++ bad :: after)
    (htext : ∀ line ∈ before, line.text.isSome = true) (hbad : bad.text = none) :
    (BinarySession.dialogue lib p).BreaksOff BinarySession.start ["Input".toList, "Output".toList] id
      (Line.ofBytes chance bytes) before ∧
    (RadixSession.dialogue lib p).BreaksOff RadixSession.start
      ["Input".toList, "Output 1".toList, "Output 2".toList, "Output 3".toList] RadixSession.State.rows
      (Line.ofBytes chance bytes) before := by
  rw [h]
  exact ⟨Dialogue.breaksOff (fun _ => rfl) (BinarySession.length_after lib p) htext hbad after,
    Dialogue.breaksOff (fun _ => rfl) (RadixSession.length_after lib p) htext hbad after⟩

/-- A byte that begins no character stands where a number is asked for. -/
theorem unreadable_line_breaks_off_byte_255 :
    let lib : Elementary := ⟨fun _ x => x, fun x _ => x⟩
    let chance : Nat → Chance := fun _ _ => ⟨0, twoPow_pos 53⟩
    let bytes : ByteArray := ⟨#[0x31, 0x36, 0x0a, 0xff, 0x0a, 0x35]⟩
    Line.ofBytes chance bytes = [⟨some ['1', '6'], chance 0⟩] ++ ⟨none, chance 1⟩ :: [⟨some ['5'], chance 2⟩] ∧
      RadixSession.run lib 3 (Line.ofBytes chance bytes) =
        ⟨"Enter origin base (2, 8, 10, 16): Enter number in base 16: ".toList, some .unreadable⟩ := by
  intro lib chance bytes
  have hlines : Line.ofBytes chance bytes =
      [⟨some ['1', '6'], chance 0⟩] ++ ⟨none, chance 1⟩ :: [⟨some ['5'], chance 2⟩] := by
    have hbytes : lineBytes bytes = [[0x31, 0x36], [0xff], [0x35]] := by decide +kernel
    have hbase : decodeLine [0x31, 0x36] = some ['1', '6'] := by decide +kernel
    have hbad : decodeLine [0xff] = none := by decide +kernel
    have hnumber : decodeLine [0x35] = some ['5'] := by decide +kernel
    rw [Line.ofBytes, hbytes, ← hbase, ← hbad, ← hnumber]
    rfl
  obtain ⟨-, hradix⟩ := unreadable_line_breaks_off lib 3 hlines (by decide) rfl
  obtain ⟨said, shown, hshown, hbefore, hrun⟩ := hradix.unreadable (by decide +kernel)
  have hprompts : (RadixSession.dialogue lib 3).run RadixSession.start [⟨some ['1', '6'], chance 0⟩] =
      ⟨"Enter origin base (2, 8, 10, 16): Enter number in base 16: ".toList ++ "No conversions to display.\n".toList,
        none⟩ := by
    decide +kernel
  have houtput := congrArg Transcript.output (hbefore.symm.trans hprompts)
  rw [hshown.of_none (by decide +kernel)] at houtput
  exact ⟨hlines, hrun.trans (congrArg (Transcript.mk · (some .unreadable)) (List.append_cancel_right houtput))⟩

end Positional
