/-
  Positional.Proofs.Session — what a session makes of its lines.

  The lines before the first that spells STOP are heard (`heard`). Each of them is answered in the
  state that the lines before it have left (`after`), and what is written for it are the prompt and
  the answer (`spoken`). So a run over lines that are text is what is spoken for those that are heard,
  and the end in the state after them (`run_eq`).

  Where a session stops, it ends as if its input ended there: what follows the line that stops it, and
  this line itself, leave no trace (`run_cut`).

  A session of conversions shows its rows at the end, and does not fail if they fit (`conclude_rows`).
-/
import Mathlib.Data.List.TakeWhile
import Positional.Session

namespace Positional

namespace Line

/-- What a line says, without the blanks around it. -/
def content (line : Line) : Text := (line.text.getD []).trim

/-- Whether a line ends a session. -/
def isStop (line : Line) : Bool := line.text.any (Dialogue.isStop ·.trim)

/-- A line that a session answers: it is text and does not end the session. -/
structure Answered (line : Line) : Prop where
  text : line.text.isSome = true
  proceeds : line.isStop = false

end Line

/-- The lines before the first that ends a session. -/
def heard (lines : List Line) : List Line := lines.takeWhile (!·.isStop)

theorem answered_heard {lines : List Line} (h : ∀ line ∈ lines, line.text.isSome = true) :
    ∀ line ∈ heard lines, line.Answered := fun line hl =>
  ⟨h line ((List.takeWhile_sublist _).mem hl), by simpa using List.all_eq_true.mp List.all_takeWhile line hl⟩

theorem heard_of_answered {lines : List Line} (h : ∀ line ∈ lines, line.Answered) : heard lines = lines :=
  List.takeWhile_eq_self_iff.mpr fun line hl => by simp [(h line hl).proceeds]

theorem heard_single {line : Line} (h : line.Answered) : heard [line] = [line] :=
  heard_of_answered fun _ hl => List.mem_singleton.mp hl ▸ h

theorem heard_eq_self_or_stop (lines : List Line) :
    heard lines = lines ∨ ∃ line rest, line.isStop = true ∧ lines = heard lines ++ line :: rest := by
  have hsplit := List.takeWhile_append_dropWhile (p := fun line : Line => !line.isStop) (l := lines)
  cases hrest : lines.dropWhile (!·.isStop) with
  | nil =>
    rw [hrest, List.append_nil] at hsplit
    exact Or.inl hsplit
  | cons line rest =>
    have hstop := List.head?_dropWhile_not (fun line : Line => !line.isStop) lines
    rw [hrest] at hstop hsplit
    exact Or.inr ⟨line, rest, by simpa using hstop, hsplit.symm⟩

namespace Dialogue

variable {σ : Type} (d : Dialogue σ)

/-! ## (1) Lines that are answered -/

theorem reply_of_stop (state : σ) {line : Line} (h : line.isStop = true) : d.reply state line = .conclude := by
  rw [Line.isStop, Option.any_eq_true] at h
  obtain ⟨t, ht, hstop⟩ := h
  simp only [reply, ht, hstop, if_true]

theorem reply_of_answered (state : σ) {line : Line} (h : line.Answered) :
    d.reply state line =
      .proceed (d.answer state line.content line.chance).1 (d.answer state line.content line.chance).2 := by
  obtain ⟨t, ht⟩ := Option.isSome_iff_exists.mp h.text
  have hproceeds : isStop t.trim = false := by simpa [Line.isStop, ht] using h.proceeds
  simp only [reply, ht, hproceeds, Bool.false_eq_true, if_false, Line.content, Option.getD_some]

/-- The state that lines leave when all of them are answered. -/
def after (state : σ) (lines : List Line) : σ :=
  lines.foldl (fun state line => (d.answer state line.content line.chance).1) state

/-- What is written for them: the prompts and the answers. -/
def spoken (state : σ) : List Line → Text
  | [] => []
  | line :: lines =>
    let (next, said) := d.answer state line.content line.chance
    d.prompt state ++ said ++ spoken next lines

theorem after_cons (state : σ) (line : Line) (lines : List Line) :
    d.after state (line :: lines) = d.after (d.answer state line.content line.chance).1 lines := rfl

theorem spoken_cons (state : σ) (line : Line) (lines : List Line) :
    d.spoken state (line :: lines) = d.prompt state ++ (d.answer state line.content line.chance).2 ++
      d.spoken (d.answer state line.content line.chance).1 lines := rfl

/-! ## (2) Runs -/

theorem run_append (state : σ) {lines : List Line} (h : ∀ line ∈ lines, line.Answered) (rest : List Line) :
    d.run state (lines ++ rest) =
      ⟨d.spoken state lines ++ (d.run (d.after state lines) rest).output, (d.run (d.after state lines) rest).failure⟩ := by
  induction lines generalizing state with
  | nil => rfl
  | cons line lines ih =>
    rw [List.cons_append, run, d.reply_of_answered state (h line List.mem_cons_self)]
    simp only [ih _ fun line hl => h line (List.mem_cons_of_mem _ hl), spoken_cons, after_cons, List.append_assoc]

/-- A session that is stopped ends as it would at the end of its input. -/
theorem run_cut (state : σ) {line : Line} (h : line.isStop = true) (before after : List Line) :
    d.run state (before ++ line :: after) = d.run state before := by
  induction before generalizing state with
  | nil => exact d.run_stop (d.reply_of_stop state h) after
  | cons first before ih =>
    rw [List.cons_append, run, run]
    cases d.reply state first with
    | proceed next said => simp only [ih]
    | conclude => rfl
    | fail e => rfl

/-- The state in which a session over lines of text ends. -/
def final (state : σ) (lines : List Line) : σ := d.after state (heard lines)

theorem run_eq (state : σ) {lines : List Line} (h : ∀ line ∈ lines, line.text.isSome = true) :
    let last := d.conclude (d.final state lines)
    d.run state lines =
      ⟨d.spoken state (heard lines) ++ d.prompt (d.final state lines) ++ last.output, last.failure⟩ := by
  intro last
  have hheard : d.run state lines = d.run state (heard lines) := by
    rcases heard_eq_self_or_stop lines with hself | ⟨line, rest, hstop, hsplit⟩
    · rw [hself]
    · have hcut := d.run_cut state hstop (heard lines) rest
      rwa [← hsplit] at hcut
  have hrun := d.run_append state (answered_heard h) []
  rw [List.append_nil] at hrun
  rw [hheard, hrun, List.append_assoc]
  rfl

end Dialogue

/-! ## (3) The rows at the end -/

/-- What a session of conversions shows at its end: the rows it has stored as a table, if there are any. -/
structure Results (headers : List Text) (rows : List (List Text)) (t : Text) : Prop where
  of_none : rows = [] → t = "No conversions to display.\n".toList
  of_some : rows ≠ [] → Table.layout headers rows = .ok t

theorem Results.unique {headers : List Text} {rows : List (List Text)} {t u : Text} (ht : Results headers rows t)
    (hu : Results headers rows u) : t = u := by
  by_cases h : rows = []
  · rw [ht.of_none h, hu.of_none h]
  · exact Except.ok.inj ((ht.of_some h).symm.trans (hu.of_some h))

theorem Dialogue.conclude_rows {σ : Type} {d : Dialogue σ} {state : σ} {headers : List Text} {rows : List (List Text)}
    (hd : d.conclusion state = conversionTable headers rows) (hfit : ∀ row ∈ rows, row.length = headers.length) :
    ∃ t, Results headers rows t ∧ d.conclude state = ⟨t, none⟩ := by
  rw [conclude, hd, conversionTable]
  by_cases h : rows = []
  · subst h
    exact ⟨_, ⟨fun _ => rfl, fun hne => absurd rfl hne⟩, rfl⟩
  · have hlayout : ∃ t, Table.layout headers rows = .ok t := by
      rw [Table.layout, Table.misfit?_eq_none_iff.mpr hfit]
      exact ⟨_, rfl⟩
    obtain ⟨t, ht⟩ := hlayout
    have hne : rows.isEmpty = false := by simpa using h
    refine ⟨t, ⟨fun he => absurd he h, fun _ => ht⟩, ?_⟩
    simp only [hne, Bool.false_eq_true, if_false, ht]

end Positional
