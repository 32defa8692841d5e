/-
  Positional.Proofs.CommandLine — commands next to sessions.

  A command converts what its arguments say, a session what its lines say. The arguments of an
  expression are put together with one blank between them (`run_binary`), the lines are trimmed, and the base of a number
  is read in two places. What a conversion makes of its text does not depend on the blanks around it (`inBinary_trim`,
  `inAllRadices_trim`), and both places take the same bases. So a command and a session of one conversion agree, where
  they succeed and where they fail (`commands_agree_with_sessions`).

  What the two write is told apart by the conversion: the cells of a row and the cause of a failure can be
  read from a command's answer (`convertRadix_eq_succeed_iff`, `answer_eq_fail_iff`) and from what the session
  writes (`run_pair_iff`).
-/
import Positional.CommandLine
import Positional.Proofs.Session.Binary
import Positional.Proofs.Session.Input
import Positional.Proofs.Session.Radix
import Positional.Proofs.Text.Joined

namespace Positional

/-! ## (1) Sessions of one conversion -/

/-- What a session says to a line that converts does not begin like a refusal. -/
theorem ne_invalidInput {said : Text} (hlen : ">> Invalid input: ".toList.length ≤ said.length)
    (hsaid : ¬ ">> Invalid input: ".toList <+: said) (m later later' : Text) :
    said ++ later ≠ ">> Invalid input: ".toList ++ m ++ "\n\n".toList ++ later' := by
  intro h
  refine hsaid (List.prefix_of_prefix_length_le ?_ (List.prefix_append said later) hlen)
  rw [h, List.append_assoc, List.append_assoc]
  exact List.prefix_append _ _

namespace BinarySession

variable (lib : Elementary) (p : Nat) {line : Line} (h : line.Answered)

include h

theorem stored_single_iff (digits : Text) : stored lib p [line] = [[line.content, digits]] ↔
    Conversion.inBinary ⟨lib, line.chance⟩ p line.content = .ok digits := by
  rw [stored_eq, heard_single h]
  cases hconversion : Conversion.inBinary ⟨lib, line.chance⟩ p line.content with
  | ok digits' =>
    rw [List.filterMap_cons_some (exchange_of_ok lib p line hconversion).1, List.filterMap_nil]
    simp
  | error e =>
    rw [List.filterMap_cons_none (exchange_of_error lib p line hconversion).1, List.filterMap_nil]
    exact ⟨fun h => (by cases h), fun h => by cases h⟩

theorem run_single_iff (m : Text) : run lib p [line] = ⟨"Decimal: ".toList ++
      (">> Invalid input: ".toList ++ m ++ "\n\n".toList) ++ "Decimal: ".toList ++ "No conversions to display.\n".toList, none⟩ ↔
    ∃ e, Conversion.inBinary ⟨lib, line.chance⟩ p line.content = .error e ∧ e.message = m := by
  have htext : ∀ l ∈ [line], l.text.isSome = true := fun _ hl => List.mem_singleton.mp hl ▸ h.text
  obtain ⟨table, htable, hrun⟩ := run_eq lib p htext
  rw [heard_single h, List.flatMap_singleton] at hrun
  rw [stored_eq, heard_single h] at htable
  rw [hrun, Transcript.mk.injEq]
  cases hconversion : Conversion.inBinary ⟨lib, line.chance⟩ p line.content with
  | ok digits =>
    rw [(exchange_of_ok lib p line hconversion).2]
    constructor
    · intro h
      have hsaid := h.1
      simp only [List.append_assoc, List.append_cancel_left_eq] at hsaid
      refine absurd hsaid ?_
      simpa only [List.append_assoc] using ne_invalidInput (by decide +kernel) (by decide +kernel) m _ _
    · intro h
      obtain ⟨e, he, -⟩ := h
      cases he
  | error e =>
    obtain ⟨hrow, hexchange⟩ := exchange_of_error lib p line hconversion
    rw [hexchange, htable.of_none (List.filterMap_cons_none hrow)]
    constructor
    · intro h
      have hsaid := h.1
      simp only [List.append_assoc, List.append_cancel_left_eq, List.append_cancel_right_eq] at hsaid
      exact ⟨e, rfl, hsaid⟩
    · intro h
      obtain ⟨e', he, hm⟩ := h
      rw [← hm, ← Except.error.inj he]
      exact ⟨rfl, rfl⟩

end BinarySession

namespace RadixSession

variable (lib : Elementary) (p : Nat) {base number : Line}

theorem origin_single_iff (hb : base.Answered) (origin : Radix) :
    (final lib p [base]).origin = some origin ↔ Text.natBelow? (twoPow 32) base.content = some origin.base := by
  constructor
  · intro h
    obtain ⟨rounds, last, hrounds⟩ := exists_rounds lib p (heard [base])
    rw [hrounds.final_eq] at h
    rw [heard_single hb] at hrounds
    cases hrounds with
    | pending hbase =>
      obtain rfl := Option.some.inj h
      exact hbase
    | malformed _ later | unsupported _ _ later =>
      cases later
      cases h
  · intro horigin
    have hrounds : Rounds lib p (heard [base]) [] (some origin) := by
      rw [heard_single hb]
      exact .pending horigin
    rw [hrounds.final_eq]

section

variable (hb : base.Answered) (hn : number.Answered) {origin : Radix}
  (horigin : Text.natBelow? (twoPow 32) base.content = some origin.base)

include hb hn horigin

theorem rounds_pair_of_ok {row : List Text}
    (h : Conversion.inAllRadices ⟨lib, number.chance⟩ origin p number.content = .ok row) :
    Rounds lib p (heard [base, number]) [.stored origin row] none := by
  rw [heard_of_answered (by simp [hb, hn])]
  exact .stored horigin h .done

theorem rounds_pair_of_error {e : ConversionError}
    (h : Conversion.inAllRadices ⟨lib, number.chance⟩ origin p number.content = .error e) :
    Rounds lib p (heard [base, number]) [.refused origin e] none := by
  rw [heard_of_answered (by simp [hb, hn])]
  exact .refused horigin h .done

theorem rows_pair_iff (row : List Text) : (final lib p [base, number]).rows = [row] ↔
    Conversion.inAllRadices ⟨lib, number.chance⟩ origin p number.content = .ok row := by
  cases hconversion : Conversion.inAllRadices ⟨lib, number.chance⟩ origin p number.content with
  | ok row' =>
    rw [(rounds_pair_of_ok lib p hb hn horigin hconversion).final_eq, Except.ok.injEq]
    exact List.singleton_inj
  | error e =>
    rw [(rounds_pair_of_error lib p hb hn horigin hconversion).final_eq]
    exact ⟨fun h => (by cases h), fun h => by cases h⟩

theorem run_pair_iff (m : Text) : run lib p [base, number] = ⟨basePrompt ++ numberPrompt origin ++
      (">> Invalid input: ".toList ++ m ++ "\n\n".toList) ++ basePrompt ++ "No conversions to display.\n".toList, none⟩ ↔
    ∃ e, Conversion.inAllRadices ⟨lib, number.chance⟩ origin p number.content = .error e ∧ e.message = m := by
  have htext : ∀ l ∈ [base, number], l.text.isSome = true := by
    simp [hb.text, hn.text]
  cases hconversion : Conversion.inAllRadices ⟨lib, number.chance⟩ origin p number.content with
  | ok row =>
    obtain ⟨table, -, hrun⟩ := (rounds_pair_of_ok lib p hb hn horigin hconversion).run_eq htext
    rw [hrun, Transcript.mk.injEq]
    constructor
    · intro h
      have hsaid := h.1
      simp only [List.flatMap_singleton, Round.said, List.append_assoc, List.append_cancel_left_eq] at hsaid
      refine absurd hsaid ?_
      simpa only [List.append_assoc] using ne_invalidInput (by decide +kernel) (by decide +kernel) m _ _
    · intro h
      obtain ⟨e, he, -⟩ := h
      cases he
  | error e =>
    obtain ⟨table, htable, hrun⟩ := (rounds_pair_of_error lib p hb hn horigin hconversion).run_eq htext
    simp only [List.flatMap_singleton, Round.said, Option.elim, List.append_nil] at hrun
    rw [hrun, htable.of_none rfl, Transcript.mk.injEq]
    constructor
    · intro h
      have hsaid := h.1
      simp only [List.append_assoc, List.append_cancel_left_eq, List.append_cancel_right_eq] at hsaid
      exact ⟨e, rfl, hsaid⟩
    · intro h
      obtain ⟨e', he, hm⟩ := h
      rw [← hm, ← Except.error.inj he]
      exact ⟨rfl, rfl⟩

end

end RadixSession

namespace CommandLine

/-! ## (2) Answers -/

theorem succeed_inj {line line' : Text} (h : succeed line = succeed line') : line = line' := by
  rw [succeed, succeed, Outcome.mk.injEq] at h
  exact List.append_cancel_right h.2.1

theorem succeed_ne_fail (line output : Text) (f : Failure) : succeed line ≠ fail output f := by
  intro h
  rw [succeed, fail, Outcome.mk.injEq] at h
  exact absurd h.1 (by decide)

theorem fail_inj {output summary cause cause' : Text}
    (h : fail output ⟨summary, some cause⟩ = fail output ⟨summary, some cause'⟩) : cause = cause' := by
  rw [fail, fail, Outcome.mk.injEq] at h
  exact Failure.report_inj h.2.2

/-- What a command leaves: what it shows of its result, or why there is none. -/
def answer {α : Type} (result : Except ConversionError α) (shown : α → Text) (summary : Text) : Outcome :=
  match result with
  | .ok x => succeed (shown x)
  | .error e => fail [] ⟨summary, some e.message⟩

section

variable {α : Type} (result : Except ConversionError α) (shown : α → Text) (summary : Text)

theorem answer_eq_succeed_iff (line : Text) :
    answer result shown summary = ⟨0, line ++ ['\n'], []⟩ ↔ ∃ x, result = .ok x ∧ shown x = line := by
  cases result with
  | ok x =>
    constructor
    · intro h
      exact ⟨x, rfl, succeed_inj h⟩
    · intro h
      obtain ⟨y, hy, hline⟩ := h
      rw [← hline, ← Except.ok.inj hy]
      rfl
  | error e =>
    constructor
    · intro h
      exact absurd h.symm (succeed_ne_fail _ _ _)
    · intro h
      obtain ⟨y, hy, -⟩ := h
      cases hy

theorem answer_eq_fail_iff (m : Text) :
    answer result shown summary = ⟨1, [], Failure.report ⟨summary, some m⟩⟩ ↔
      ∃ e, result = .error e ∧ e.message = m := by
  cases result with
  | ok x =>
    constructor
    · intro h
      exact absurd h (succeed_ne_fail _ _ _)
    · intro h
      obtain ⟨e, he, -⟩ := h
      cases he
  | error e =>
    constructor
    · intro h
      exact ⟨e, rfl, fail_inj h⟩
    · intro h
      obtain ⟨e', he, hm⟩ := h
      rw [← hm, ← Except.error.inj he]
      rfl

end

section

variable (s : Setting) (p : Nat)

theorem convertBinary_eq (e : Text) :
    convertBinary s p e = answer (Conversion.inBinary s p e) id ("could not convert ".toList ++ e) := by
  unfold convertBinary answer
  cases Conversion.inBinary s p e with
  | ok digits => rfl
  | error error => rfl

theorem convertRadix_eq (origin : Radix) (number : Text) : convertRadix s origin p number =
    answer (Conversion.inAllRadices s origin p number) (Text.joined " = ".toList)
      ("could not convert ".toList ++ number ++ " from base ".toList ++ Text.ofNat origin.base) := by
  unfold convertRadix answer
  cases Conversion.inAllRadices s origin p number with
  | ok row => rfl
  | error error => rfl

theorem convertBinary_eq_succeed_iff (e digits : Text) :
    convertBinary s p e = ⟨0, digits ++ ['\n'], []⟩ ↔ Conversion.inBinary s p e = .ok digits := by
  rw [convertBinary_eq, answer_eq_succeed_iff]
  exact exists_eq_right

/-- No cell of a row has a space, so the cells can be told from what is shown. -/
theorem convertRadix_eq_succeed_iff (origin : Radix) (number c₀ c₁ c₂ c₃ : Text) :
    convertRadix s origin p number = ⟨0, " = ".toList.intercalate [c₀, c₁, c₂, c₃] ++ ['\n'], []⟩ ↔
      Conversion.inAllRadices s origin p number = .ok [c₀, c₁, c₂, c₃] := by
  rw [convertRadix_eq, answer_eq_succeed_iff]
  constructor
  · intro h
    obtain ⟨row, hrow, hcells⟩ := h
    obtain ⟨x, -, hx⟩ := bind_eq_ok.mp hrow
    have hblank := Conversion.space_notMem_row (mapError_eq_ok.mp hx)
    have hlen : [c₀, c₁, c₂, c₃].length = row.length := (RadixSession.length_row p hrow).symm
    rw [hrow, Text.joined_equals_inj hlen hblank hcells.symm]
  · intro h
    exact ⟨_, h, rfl⟩

end

/-! ## (3) Commands -/

/-- What a radix command with a number is given, and nothing in it is refused but for the base. -/
structure Given.Names (g : Given) (base number : Text) (p : Nat) : Prop where
  origin : g.get .origin = .ok (some base)
  number : g.values = [number]
  precision : CommandLine.precision g = .ok p
  verbosity : g.checkVerbosity = .ok ()

section

variable {g : Given} {base number : Text} {p : Nat} (h : g.Names base number p)

include h

theorem request_eq : request .radix g = match Radix.ofText base with
    | .ok origin => .ok (.radix (some origin) (some number) p)
    | .error _ => .error (.invalidValue .origin base) := by
  have horigin : CommandLine.origin g = match Radix.ofText base with
      | .ok origin => .ok (some origin)
      | .error _ => .error (.invalidValue .origin base) := by
    unfold CommandLine.origin
    rw [h.origin]
    rfl
  unfold request
  rw [h.verbosity, h.precision, horigin, h.number]
  cases Radix.ofText base with
  | ok origin => rfl
  | error e => rfl

theorem request_eq_ok_iff {origin : Radix} : request .radix g = .ok (.radix (some origin) (some number) p) ↔
    Radix.ofText base = .ok origin := by
  rw [request_eq h]
  cases Radix.ofText base <;> simp

theorem request_eq_error_iff : request .radix g = .error (.invalidValue .origin base) ↔
    ∀ origin, Radix.ofText base ≠ .ok origin := by
  rw [request_eq h]
  cases Radix.ofText base <;> simp

end

section

variable (s : Setting) {args : List Text} {p : Nat} (input : List Line)

/-- One blank stands between an argument and the next, whatever the two are. -/
theorem run_binary {words : List Text} (hne : words ≠ []) (h : readRequest args .none = .ok (.binary words p)) :
    run s args input = convertBinary s p ([' '].intercalate words) := by
  obtain ⟨word, words, rfl⟩ := List.exists_cons_of_ne_nil hne
  unfold run task
  rw [h]
  rfl

theorem run_radix {origin : Radix} {number : Text}
    (h : readRequest args .none = .ok (.radix (some origin) (some number) p)) :
    run s args input = convertRadix s origin p number := by
  unfold run task
  rw [h]
  rfl

end

/-! ## (4) Arguments -/

theorem ofText_long {name : Text} (h : '=' ∉ name) (content : Text) :
    Argument.ofText ('-' :: '-' :: (name ++ '=' :: content)) = .long name (some content) := by
  have hcut := Text.cutAt?_append h content
  cases name with
  | nil => rfl
  | cons x name =>
    unfold Argument.ofText
    simp only [List.cons_append] at hcut ⊢
    rw [hcut]

theorem foldlM_value (g : Given) (words : List Text) :
    words.foldlM (Given.value .binary) g = .ok { g with values := g.values ++ words } := by
  induction words generalizing g with
  | nil => rw [List.append_nil]; rfl
  | cons word words ih =>
    have hvalue : Given.value .binary g word = .ok { g with values := g.values ++ [word] } := rfl
    rw [List.foldlM_cons, hvalue]
    exact (ih _).trans (by rw [List.append_assoc]; rfl)

section

variable {content : Text} {p : Nat} (h : Text.natBelow? (twoPow 64) content = some p)

include h

theorem precision_eq {g : Given} (hg : g.get .precision = .ok (some content)) : precision g = .ok p := by
  unfold precision
  simp only [hg, bind, Except.bind, h]

/-- Every expression can be asked for, with every precision. -/
theorem readRequest_binary (words : List Text) : readRequest ("binary".toList ::
    ('-' :: '-' :: ("precision".toList ++ '=' :: content)) :: ['-', '-'] :: words) .none = .ok (.binary words p) := by
  let g : Given := ⟨[], [(.precision, some content)], words⟩
  have hprecision : precision g = .ok p := precision_eq h rfl
  have hread : readArguments .binary (('-' :: '-' :: ("precision".toList ++ '=' :: content)) :: ['-', '-'] :: words) none
      .none = .ok g := by
    unfold readArguments
    rw [ofText_long (by decide)]
    exact foldlM_value _ words
  have hrequest : request .binary g = .ok (.binary words p) := by
    unfold request
    rw [hprecision]
    rfl
  have hname : Argument.ofText "binary".toList = .value "binary".toList := rfl
  have hcommand : Command.ofText? "binary".toList = some .binary := rfl
  unfold readRequest
  simp only [hname, hcommand, hread, bind, Except.bind, hrequest]
  rfl

/-- So can every base and number. -/
theorem readRequest_radix (base number : Text) : ∃ g : Given, g.Names base number p ∧
    readRequest ["radix".toList, '-' :: '-' :: ("from".toList ++ '=' :: base),
      '-' :: '-' :: ("precision".toList ++ '=' :: content), ['-', '-'], number] .none = (request .radix g).mapError .usage := by
  let g : Given := ⟨[], [(.origin, some base), (.precision, some content)], [number]⟩
  have hread : readArguments .radix ['-' :: '-' :: ("from".toList ++ '=' :: base),
      '-' :: '-' :: ("precision".toList ++ '=' :: content), ['-', '-'], number] none .none = .ok g := by
    unfold readArguments
    rw [ofText_long (by decide)]
    change readArguments .radix ['-' :: '-' :: ("precision".toList ++ '=' :: content), ['-', '-'], number] none
      ⟨[], [(.origin, some base)], []⟩ = .ok g
    unfold readArguments
    rw [ofText_long (by decide)]
    rfl
  have hname : Argument.ofText "radix".toList = .value "radix".toList := rfl
  have hcommand : Command.ofText? "radix".toList = some .radix := rfl
  refine ⟨g, ⟨rfl, rfl, precision_eq h rfl, rfl⟩, ?_⟩
  unfold readRequest
  simp only [hname, hcommand, hread, bind, Except.bind]
  rfl

end

/-! ## (5) Commands and sessions -/

theorem answered_typed (chance : Chance) {t : Text} (h : Dialogue.isStop t.trim = false) :
    (⟨some t, chance⟩ : Line).Answered := ⟨rfl, h⟩

theorem typed_single (chance : Chance) {t : Text} (h : '\n' ∉ t) :
    Line.ofBytes (fun _ => chance) (typed [t]) = [⟨some t, chance⟩] := ofBytes_typed _ (by simpa using h)

theorem typed_pair (chance : Chance) {t u : Text} (ht : '\n' ∉ t) (hu : '\n' ∉ u) :
    Line.ofBytes (fun _ => chance) (typed [t, u]) = [⟨some t, chance⟩, ⟨some u, chance⟩] :=
  ofBytes_typed _ (by simpa using ⟨ht, hu⟩)

/-- A command converts exactly what a session does that has its arguments typed: an expression, whose words have one blank
between them, or a base and a number. The two take the same bases. They show the same digits, or give the same
reason for showing none. -/
theorem commands_agree_with_sessions (s : Setting) (args : List Text) (p : Nat) (input : List Line) :
    (∀ words, words ≠ [] → readRequest args .none = .ok (.binary words p) →
      let e : Text := [' '].intercalate words
      '\n' ∉ e → Dialogue.isStop e.trim = false →
      let lines := Line.ofBytes (fun _ => s.chance) (typed [e])
      (∀ digits, run s args input = ⟨0, digits ++ ['\n'], []⟩ ↔
        BinarySession.stored s.elementary p lines = [[e.trim, digits]]) ∧
      ∀ m, run s args input = ⟨1, [], Failure.report ⟨"could not convert ".toList ++ e, some m⟩⟩ ↔
        BinarySession.run s.elementary p lines = ⟨"Decimal: ".toList ++
          (">> Invalid input: ".toList ++ m ++ "\n\n".toList) ++ "Decimal: ".toList ++
          "No conversions to display.\n".toList, none⟩) ∧
    ∀ (g : Given) base number, g.Names base number p → readRequest args .none = (request .radix g).mapError .usage →
      '\n' ∉ base → Dialogue.isStop base.trim = false → '\n' ∉ number → Dialogue.isStop number.trim = false →
      let baseLine := Line.ofBytes (fun _ => s.chance) (typed [base])
      let lines := Line.ofBytes (fun _ => s.chance) (typed [base, number])
      (∀ origin, readRequest args .none = .ok (.radix (some origin) (some number) p) ↔
        (RadixSession.final s.elementary p baseLine).origin = some origin) ∧
      (readRequest args .none = .error (.usage (.invalidValue .origin base)) ↔
        (RadixSession.final s.elementary p baseLine).origin = none) ∧
      ∀ origin, readRequest args .none = .ok (.radix (some origin) (some number) p) →
        (∀ c₀ c₁ c₂ c₃, run s args input = ⟨0, " = ".toList.intercalate [c₀, c₁, c₂, c₃] ++ ['\n'], []⟩ ↔
          (RadixSession.final s.elementary p lines).rows = [[c₀, c₁, c₂, c₃]]) ∧
        ∀ m, run s args input = ⟨1, [], Failure.report
            ⟨"could not convert ".toList ++ number ++ " from base ".toList ++ Text.ofNat origin.base, some m⟩⟩ ↔
          RadixSession.run s.elementary p lines = ⟨RadixSession.basePrompt ++ RadixSession.numberPrompt origin ++
            (">> Invalid input: ".toList ++ m ++ "\n\n".toList) ++ RadixSession.basePrompt ++
            "No conversions to display.\n".toList, none⟩ := by
  constructor
  · intro words hwords hargs e hnewline hstop lines
    have hline : Line.Answered ⟨some e, s.chance⟩ := answered_typed s.chance hstop
    have hlines : lines = [⟨some e, s.chance⟩] := typed_single s.chance hnewline
    have hcontent : Conversion.inBinary s p (Line.content ⟨some e, s.chance⟩) = Conversion.inBinary s p e :=
      Conversion.inBinary_trim s p e
    rw [hlines, run_binary s input hwords hargs]
    refine ⟨fun digits => ?_, fun m => ?_⟩
    · rw [convertBinary_eq_succeed_iff, ← hcontent]
      exact (BinarySession.stored_single_iff s.elementary p hline digits).symm
    · rw [convertBinary_eq, answer_eq_fail_iff, ← hcontent]
      exact (BinarySession.run_single_iff s.elementary p hline m).symm
  · intro g base number hg hargs hbase hstop hnumber hstop' baseLine lines
    have hb : Line.Answered ⟨some base, s.chance⟩ := answered_typed s.chance hstop
    have hn : Line.Answered ⟨some number, s.chance⟩ := answered_typed s.chance hstop'
    have hlines : lines = [⟨some base, s.chance⟩, ⟨some number, s.chance⟩] := typed_pair s.chance hbase hnumber
    have hbaseLine : baseLine = [⟨some base, s.chance⟩] := typed_single s.chance hbase
    have haccepted (origin : Radix) : Radix.ofText base = .ok origin ↔
        (RadixSession.final s.elementary p baseLine).origin = some origin := by
      rw [hbaseLine, RadixSession.origin_single_iff s.elementary p hb]
      exact Radix.ofText_eq_ok_iff
    refine ⟨fun origin => ?_, ?_, fun origin haccept => ?_⟩
    · rw [hargs, mapError_eq_ok, request_eq_ok_iff hg, haccepted]
    · rw [hargs, mapError_eq_error, Option.eq_none_iff_forall_ne_some]
      simp only [Stop.usage.injEq, exists_eq_right, request_eq_error_iff hg, ne_eq, haccepted]
    · have horigin : Text.natBelow? (twoPow 32) base.trim = some origin.base := by
        rw [hargs, mapError_eq_ok, request_eq_ok_iff hg] at haccept
        exact Radix.ofText_eq_ok_iff.mp haccept
      have hcontent : Conversion.inAllRadices s origin p (Line.content ⟨some number, s.chance⟩) =
          Conversion.inAllRadices s origin p number := Conversion.inAllRadices_trim s origin p number
      rw [hlines, run_radix s input haccept]
      refine ⟨fun c₀ c₁ c₂ c₃ => ?_, fun m => ?_⟩
      · rw [convertRadix_eq_succeed_iff, ← hcontent]
        exact (RadixSession.rows_pair_iff s.elementary p hb hn horigin _).symm
      · rw [convertRadix_eq, answer_eq_fail_iff, ← hcontent]
        exact (RadixSession.run_pair_iff s.elementary p hb hn horigin m).symm

/-- Two and a half is written in binary; without the blank between its words it would be ten and a half. Octal 19 has no
value, and its base is found behind a blank. -/
theorem commands_agree_with_sessions_two_and_a_half :
    let s : Setting := ⟨⟨fun _ x => x, fun x _ => x⟩, fun _ => ⟨0, twoPow_pos 53⟩⟩
    let lines (ts : List Text) : List Line := Line.ofBytes (fun _ => s.chance) (typed ts)
    let three : Text := '-' :: '-' :: ("precision".toList ++ '=' :: ['3'])
    let eight : Text := '-' :: '-' :: ("from".toList ++ '=' :: [' ', '+', '8'])
    let halves : List Text := ["binary".toList, three, ['-', '-'], [], ['2'], ['1', '/', '2']]
    let nineteen : List Text := ["radix".toList, eight, three, ['-', '-'], ['1', '9']]
    (run s halves [] = ⟨0, ['1', '0', '.', '1', '\n'], []⟩ ∧
      BinarySession.stored s.elementary 3 (lines [[' ', '2', ' ', '1', '/', '2']]) =
        [[['2', ' ', '1', '/', '2'], ['1', '0', '.', '1']]]) ∧
    (RadixSession.final s.elementary 3 (lines [[' ', '+', '8']])).origin = some .octal ∧
    run s nineteen [] = ⟨1, [], Failure.report ⟨"could not convert ".toList ++ ['1', '9'] ++ " from base ".toList ++ ['8'],
      some "invalid digit '9' for base 8".toList⟩⟩ ∧
    RadixSession.run s.elementary 3 (lines [[' ', '+', '8'], ['1', '9']]) =
      ⟨RadixSession.basePrompt ++ RadixSession.numberPrompt .octal ++
        (">> Invalid input: ".toList ++ "invalid digit '9' for base 8".toList ++ "\n\n".toList) ++
        RadixSession.basePrompt ++ "No conversions to display.\n".toList, none⟩ := by
  intro s lines three eight halves nineteen
  have hthree : Text.natBelow? (twoPow 64) ['3'] = some 3 := by decide +kernel
  constructor
  · have hargs : readRequest halves .none = .ok (.binary [[], ['2'], ['1', '/', '2']] 3) := readRequest_binary hthree _
    have hdigits : Conversion.inBinary s 3 [' ', '2', ' ', '1', '/', '2'] = .ok ['1', '0', '.', '1'] := by
      let m : MixedNumber := ⟨false, ['2'], ['1'], ['2']⟩
      have hgrammar : Expression.grammarValue s .binaryTool (Text.trim [' ', '2', ' ', '1', '/', '2']) =
          .error (.grammar (.unexpectedCharacter '1' 2)) := Expression.failure?_eq_some.mp (by decide +kernel)
      have hform : FractionForm.ofText (Text.trim [' ', '2', ' ', '1', '/', '2']) = .mixed m := by decide +kernel
      have hvalue : Expression.evaluate s .binaryTool [' ', '2', ' ', '1', '/', '2'] = .ok m.total := by
        rw [Expression.evaluate_of_mixed hgrammar rfl hform, MixedNumber.value_eq, if_neg (by decide)]
        rfl
      have htotal : m.total = .finite false (5 * twoPow 1073) (Binary64.representable_scaled (by decide) (by decide)) := by
        decide +kernel
      have hwhole : 5 * twoPow 1073 / Binary64.one = 2 := by decide +kernel
      refine Conversion.inBinary_of_value s hvalue ?_
      rw [htotal, Binary64.inRadix_finite, if_neg (by decide +kernel), hwhole, if_neg (by decide),
        Numeral.digits_eq (by decide)]
      decide +kernel
    have hrun : run s halves [] = ⟨0, ['1', '0', '.', '1'] ++ ['\n'], []⟩ := by
      rw [run_binary s [] (List.cons_ne_nil _ _) hargs]
      exact (convertBinary_eq_succeed_iff s 3 _ _).mpr hdigits
    obtain ⟨hagree, -⟩ := commands_agree_with_sessions s halves 3 []
    have hstored := (hagree _ (List.cons_ne_nil _ _) hargs (by decide) (by decide +kernel)).1 ['1', '0', '.', '1']
    exact ⟨hrun, hstored.mp hrun⟩
  · obtain ⟨g, hg, hargs⟩ := readRequest_radix hthree [' ', '+', '8'] ['1', '9']
    obtain ⟨haccepted, -, hagree⟩ := (commands_agree_with_sessions s nineteen 3 []).2 g _ _ hg hargs (by decide)
      (by decide +kernel) (by decide) (by decide +kernel)
    have hrequest : readRequest nineteen .none = .ok (.radix (some .octal) (some ['1', '9']) 3) := by
      rw [hargs, mapError_eq_ok, request_eq_ok_iff hg, Radix.ofText_eq_ok_iff]
      decide +kernel
    have hfailing : Conversion.inAllRadices s .octal 3 ['1', '9'] = .error (.numeral (.invalidDigit '9' 8)) :=
      Conversion.inAllRadices_of_plain s (by decide) (by decide +kernel) rfl 3
    have hrun : run s nineteen [] = _ := run_radix s [] hrequest
    rw [convertRadix_eq, hfailing] at hrun
    exact ⟨(haccepted .octal).mp hrequest, hrun, ((hagree .octal hrequest).2 _).mp hrun⟩

end CommandLine

end Positional
