/-
  Positional.Proofs.Conversion.LetterCase — letter case in the input of the radix tool.

  Letters are names, exponent markers, the marker of `0x` and digits, and in all these parts their
  case makes no difference. So input is told apart as an expression or a numeral in any case
  (`isPlainNumeral_lower`), texts that differ in letter case are expressions with one value
  (`lowered_evaluate`), and numerals with one value (`read_lower`). An error may repeat letters
  of the input; but for their case it is the same, at the same place
  (`letter_case_does_not_matter`).
-/
import Positional.Conversion
import Positional.Proofs.Expression.Agreement

namespace Positional

open Expression

/-- Each letter stands for itself in both cases. -/
def Respelling.letterCase : Respelling where
  letter x y := x.toLower = y.toLower
  gaps := False
  symm := Eq.symm
  toLower_eq := id
  zero := rfl
  marker := rfl

open Respelling

/-! ## (1) Errors in lower case -/

/-- The letters that an error repeats, in lower case. -/
def SyntaxError.lowered : SyntaxError → SyntaxError
  | unexpectedCharacter x position => unexpectedCharacter x.toLower position
  | unknownFunction name => unknownFunction name.lower
  | invalidNumber text => invalidNumber text.lower
  | error => error

def ExpressionError.lowered : ExpressionError → ExpressionError
  | grammar error => grammar error.lowered
  | domain error => domain error

def NumeralError.lowered : NumeralError → NumeralError
  | invalidDigit digit base => invalidDigit digit.toLower base
  | malformed text => malformed text.lower
  | error => error

def ConversionError.lowered : ConversionError → ConversionError
  | expression error => expression error.lowered
  | numeral error => numeral error.lowered

/-! ## (2) Expressions -/

theorem respells_letterCase {t u : Text} (h : t.lower = u.lower) : letterCase.Respells t u := by
  refine respells_of_forall₂ ?_
  rw [Text.lower, Text.lower, ← congrFun (congrFun List.forall₂_eq_eq_eq _) _, List.forall₂_map_left_iff,
    List.forall₂_map_right_iff] at h
  exact h

theorem SyntaxError.Respelled.lowered {t u : Text} {f f' : SyntaxError} (h : f.Respelled letterCase t u f') :
    f.lowered = f'.lowered := by
  have place {p q : Nat} (h : letterCase.Place p q) : p = q := h.resolve_left id
  cases h with
  | empty | unexpectedEnd | tooManySlashes => rfl
  | @unexpectedCharacter x y p q hl hp =>
    have hxy : x.toLower = y.toLower := hl
    simp only [SyntaxError.lowered, hxy, place hp]
  | blank hg => exact absurd hg id
  | unbalancedParenthesis hp | nestedTooDeeply hp => rw [place hp]
  | unknownFunction hn | invalidNumber hn => simp only [SyntaxError.lowered, lower_eq hn]

theorem lowered_evaluate (s : Setting) (language : Language) {t u : Text} (h : t.lower = u.lower) :
    (evaluate s language t).mapError ExpressionError.lowered = (evaluate s language u).mapError ExpressionError.lowered := by
  have hagree : AnswersAgree letterCase t u (evaluate s language t) (evaluate s language u) :=
    evaluate_respelled (Or.inl rfl) language.fractions (respells_letterCase h).trim (fun hg => absurd hg id)
      ⟨rfl, Or.inr rfl⟩
  generalize evaluate s language t = r at hagree ⊢
  generalize evaluate s language u = r' at hagree ⊢
  cases hagree with
  | value | domain => rfl
  | fault hf => exact congrArg (fun f => Except.error (ExpressionError.grammar f)) hf.lowered

/-! ## (3) Numerals -/

namespace Numeral

theorem splitSign_lower (t : Text) : splitSign t.lower = ((splitSign t).1, (splitSign t).2.lower) := by
  fun_cases splitSign t with
  | case1 => rfl
  | case2 _ hminus =>
    unfold splitSign
    split
    · rename_i u h
      obtain ⟨v, rfl⟩ := Text.exists_of_lower rfl h
      exact absurd rfl (hminus v)
    · rfl

theorem sides?_lower (t : Text) :
    sides? t.lower = (sides? t).map fun (whole, fraction) => (whole.lower, fraction.lower) := by
  unfold sides?
  rw [Text.splitOnP_lower (apply_toLower (by decide))]
  rcases t.splitOnP (· == '.') with _ | ⟨whole, _ | ⟨fraction, _ | _⟩⟩
  · rfl
  · simp only [List.map_cons, List.map_nil, Text.lower, List.isEmpty_map]
    split <;> rfl
  · simp only [List.map_cons, List.map_nil, Text.lower, List.isEmpty_map]
    split <;> rfl
  · rfl

theorem readDigit_lower (r : Radix) (x : Char) :
    r.readDigit x.toLower = (r.readDigit x).mapError NumeralError.lowered := by
  rw [Radix.readDigit, apply_toLower (f := Digit.value?) (by decide), Radix.readDigit]
  cases Digit.value? x with
  | none => rfl
  | some digit =>
    dsimp only
    split <;> rfl

theorem mapM_lower (r : Radix) (t : Text) :
    t.lower.mapM r.readDigit = (t.mapM r.readDigit).mapError NumeralError.lowered := by
  induction t with
  | nil => rfl
  | cons x t ih =>
    show (x.toLower :: Text.lower t).mapM r.readDigit = _
    rw [List.mapM_cons, List.mapM_cons, readDigit_lower, ih]
    cases r.readDigit x with
    | error => rfl
    | ok digit => cases t.mapM r.readDigit <;> rfl

/-- A numeral in lower case is the same number, or fails at the same digit. -/
theorem read_lower (r : Radix) (t : Text) : read r t.lower = (read r t).mapError NumeralError.lowered := by
  unfold read
  rw [splitSign_lower]
  obtain ⟨negative, unsigned⟩ := splitSign t
  dsimp only
  rw [sides?_lower]
  cases sides? unsigned with
  | none => rfl
  | some parts =>
    obtain ⟨whole, fraction⟩ := parts
    simp only [Option.map_some, mapM_lower]
    cases whole.mapM r.readDigit with
    | error => rfl
    | ok digits => cases fraction.mapM r.readDigit <;> rfl

end Numeral

/-! ## (4) Input -/

namespace Conversion

theorem isDigitRun_lower (t : Text) : isDigitRun t.lower = isDigitRun t := by
  rw [isDigitRun, Text.all_lower caseless_digit.lower, Text.lower, List.isEmpty_map, isDigitRun]

theorem isPlainNumeral_lower (t : Text) : isPlainNumeral t.lower = isPlainNumeral t := by
  rw [isPlainNumeral, Text.cutAt?_lower (apply_toLower (f := (· != '.')) (by decide)), isPlainNumeral]
  cases t.cutAt? '.' with
  | none => exact isDigitRun_lower t
  | some parts => exact congrArg₂ and (isDigitRun_lower parts.1) (isDigitRun_lower parts.2)

/-- Input that differs in the case of its letters is the same number, or has the same error at the same place. -/
theorem letter_case_does_not_matter (s : Setting) (language : Language) (origin : Radix) {t u : Text}
    (h : t.lower = u.lower) : (read s language origin t).mapError ConversionError.lowered =
      (read s language origin u).mapError ConversionError.lowered := by
  have htrim : t.trim.lower = u.trim.lower := by rw [← Text.trim_lower, h, Text.trim_lower]
  have hplain : isPlainNumeral t.trim = isPlainNumeral u.trim := by
    rw [← isPlainNumeral_lower, htrim, isPlainNumeral_lower]
  have expression (r : Except ExpressionError Binary64) : (r.mapError ConversionError.expression).mapError
      ConversionError.lowered = (r.mapError ExpressionError.lowered).mapError ConversionError.expression := by
    cases r <;> rfl
  have numeral (r : Except NumeralError Binary64) : (r.mapError ConversionError.numeral).mapError
      ConversionError.lowered = (r.mapError NumeralError.lowered).mapError ConversionError.numeral := by
    cases r <;> rfl
  simp only [read, hplain]
  split
  · rw [expression, expression, lowered_evaluate s language htrim]
  · rw [numeral, numeral, ← Numeral.read_lower, ← Numeral.read_lower, htrim]

/-- Digits of base sixteen, and a name that is not known after a hexadecimal literal. -/
theorem letter_case_does_not_matter_hexadecimal :
    let s : Setting := ⟨⟨fun _ x => x, fun x _ => x⟩, fun _ => ⟨0, twoPow_pos 53⟩⟩
    let t : Text := "Ff.8".toList
    let u : Text := "fF.8".toList
    let v : Text := "0XfgH".toList
    let w : Text := "0xFGh".toList
    t.lower = u.lower ∧ read s .radixTool .hexadecimal t = .ok (.ofRatio 511 2) ∧
      read s .radixTool .hexadecimal u = .ok (.ofRatio 511 2) ∧
      v.lower = w.lower ∧
      read s .radixTool .hexadecimal v = .error (.expression (.grammar (.unknownFunction "gH".toList))) ∧
      (read s .radixTool .hexadecimal w).mapError ConversionError.lowered =
        .error (.expression (.grammar (.unknownFunction "gh".toList))) := by
  intro s t u v w
  have htu : t.lower = u.lower := by decide
  have hvw : v.lower = w.lower := by decide
  have ht : read s .radixTool .hexadecimal t = .ok (.ofRatio 511 2) := by
    have hn : Numeral.read .hexadecimal t.trim = .ok (.ofRatio 511 2) := by decide +kernel
    have hp : (Radix.hexadecimal == .decimal || !isPlainNumeral t.trim) = false := by decide
    simp only [read, hp, hn]
    rfl
  have hv : read s .radixTool .hexadecimal v = .error (.expression (.grammar (.unknownFunction "gH".toList))) := by
    have hg : grammarValue s .radixTool v.trim.trim = .error (.grammar (.unknownFunction "gH".toList)) := by
      decide +kernel
    have hp : (Radix.hexadecimal == .decimal || !isPlainNumeral v.trim) = true := by decide
    simp only [read, hp, if_true, evaluate_of_closed hg rfl]
    rfl
  have hu := letter_case_does_not_matter s .radixTool .hexadecimal htu
  have hw := letter_case_does_not_matter s .radixTool .hexadecimal hvw
  rw [ht] at hu
  rw [hv] at hw
  exact ⟨htu, ht, mapError_eq_ok.mp hu.symm, hvw, hv, hw.symm⟩

end Conversion

end Positional
