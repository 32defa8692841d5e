/-
  Positional.Proofs.Expression.Wrapped — mixed numbers in parentheses, as the grammar reads them.

  The grammar never accepts them. It reads the parentheses and the whole number, then finds a digit
  after blanks, where only an operator or a parenthesis could stand. It does not get there if
  the whole number is infinite, or if too many parts are open around it (`Passed`).
  Leaving one pair of parentheses out keeps both from happening, so the text in them is left to
  its form again (`evaluate_wrapped`).
-/
import Positional.Proofs.Expression.Fractions

namespace Positional

open Cursor Expression

namespace MixedNumber

variable {m : MixedNumber}

/-! ## (1) Where the whole number stands -/

/-- The whole number with its sign, as the grammar reads it. -/
def head (m : MixedNumber) : Expression :=
  if m.negative then .negation (.number (ofDigits m.whole)) else .number (ofDigits m.whole)

/-- The factors and unaries that are opened for it. -/
def headDepth (m : MixedNumber) : Nat := if m.negative then 3 else 2

/-- Between blanks before and after it, the whole number ends at `d`; the numerator follows. -/
structure Placed (m : MixedNumber) (c d : Cursor) : Prop where
  digits : Text.isDigits m.whole = true
  reaches : ∃ c₀, Gap c c₀ ∧ Spans c₀ m.first d
  blank : ∃ x, d.next? = some x ∧ isBlank x = true
  numerator : ∃ y, d.skipBlanks.next? = some y ∧ y.isDigit = true

theorem placed_of_spells {c : Cursor} {lead t after : Text} (hl : Blank lead) (h : m.Spells t)
    (hc : c.rest = lead ++ t ++ after) : ∃ d, m.Placed c d := by
  obtain ⟨hd, gap, hn, hg, rfl⟩ := h
  let c₀ : Cursor := ⟨m.first ++ (gap ++ (m.second ++ after)), c.position + lead.length⟩
  let d : Cursor := ⟨gap ++ (m.second ++ after), c₀.position + m.first.length⟩
  have hgap : Gap c c₀ := ⟨lead, hl, by simp only [hc, c₀, List.append_assoc], rfl⟩
  obtain ⟨x, gap', rfl⟩ := List.exists_cons_of_ne_nil hn
  obtain ⟨y, numerator, hy⟩ := List.exists_cons_of_ne_nil (Text.isDigits_iff.mp hd.2.1).1
  have hdigit : y.isDigit = true := (Text.isDigits_iff.mp hd.2.1).2 y (hy ▸ List.mem_cons_self)
  refine ⟨d, hd.1, ⟨c₀, hgap, rfl, rfl⟩, ⟨x, rfl, hg x List.mem_cons_self⟩, y, ?_, hdigit⟩
  rw [Cursor.next?, rest_skipBlanks]
  show ((x :: gap' ++ (m.second ++ after)).dropWhile isBlank).head? = some y
  rw [List.dropWhile_append_of_pos hg, second, hy, List.cons_append, List.cons_append,
    List.dropWhile_cons_of_neg (by simp [isBlank_of_isDigit hdigit])]
  rfl

/-- Behind the parentheses stands the mixed number. -/
theorem Wrapped.opens {k : Nat} {t : Text} (h : m.Wrapped k t) : ∃ c lead u after,
    Opens k (Cursor.start t) c ∧ Blank lead ∧ m.Spells u ∧ c.rest = lead ++ u ++ after := by
  induction h with
  | bare hl _ hs => exact ⟨_, _, _, _, .none, hl, hs, rfl⟩
  | @layer k lead inner trail hl _ _ ih =>
    obtain ⟨c, lead', u, after, ho, hl', hs, hc⟩ := ih
    refine ⟨_, lead', u, after ++ ([')'] ++ trail), opens_parentheses hl ho, hl', hs, ?_⟩
    simp only [Cursor.embed, hc, List.append_assoc]

/-- Blanks around the whole may be left out. -/
theorem Wrapped.trim {k : Nat} {t : Text} (h : m.Wrapped k t) : m.Wrapped k t.trim := by
  cases h with
  | @bare lead u trail hl hr hs =>
    rw [Text.trim_eq hl hr (trimmed_of_spells hs)]
    simpa using Wrapped.bare Text.blank_nil Text.blank_nil hs
  | @layer k lead inner trail hl hr hw =>
    rw [Text.trim_eq hl hr (trimmed_parentheses inner)]
    simpa using Wrapped.layer Text.blank_nil Text.blank_nil hw

/-! ## (2) How the whole number is read -/

theorem decimalLexeme_digits {t : Text} (h : ∀ x ∈ t, x.isDigit = true) : decimalLexeme t = t := by
  induction t with
  | nil => rfl
  | cons x t ih =>
    rw [decimalLexeme.eq_def]
    simp only [h x List.mem_cons_self, Bool.true_or, if_true, ih fun y hy => h y (List.mem_cons_of_mem x hy)]

theorem isHexadecimal_digits {t : Text} (h : ∀ x ∈ t, x.isDigit = true) : isHexadecimal t = false := by
  unfold isHexadecimal
  split
  · rename_i marker u
    have hm := h marker (List.mem_cons_of_mem _ List.mem_cons_self)
    rw [← Bool.not_eq_true]
    intro hx
    simp only [Bool.or_eq_true, beq_iff_eq] at hx
    rcases hx with rfl | rfl <;> cases hm
  · rfl

variable {factorial : Bool} {c d : Cursor}

/-- A run of digits that ends apart from what follows is a decimal literal. -/
theorem derives_digits {n : Nat} {c₀ : Cursor} {t : Text} (h : Text.isDigits t = true) (hg : Gap c c₀)
    (hs : Spans c₀ t d) (ha : Apart d.rest) : Derives factorial n .atom c (.number (ofDigits t)) d := by
  obtain ⟨hne, hd⟩ := Text.isDigits_iff.mp h
  have hlex : decimalLexeme c₀.rest = t := by rw [hs.1, decimalLexeme_append_apart ha, decimalLexeme_digits hd]
  obtain ⟨x, hx, hxd⟩ : ∃ x, c₀.next? = some x ∧ x.isDigit = true := by
    obtain ⟨x, u, rfl⟩ := List.exists_cons_of_ne_nil hne
    exact ⟨x, by rw [Cursor.next?, hs.1]; rfl, hd x List.mem_cons_self⟩
  refine .decimal hg ⟨⟨x, hx, Or.inl hxd⟩, ?_⟩ (by rwa [hlex]) (by rw [hlex, ofText?_digits h])
  rw [hs.1, isHexadecimal_append_apart ha hne, isHexadecimal_digits hd]

/-- So is one behind a sign, if no exponent and no `!` follows. -/
theorem derives_signed (negative : Bool) {whole : Text} {c₀ : Cursor} (h : Text.isDigits whole = true) (hg : Gap c c₀)
    (hs : Spans c₀ (if negative then '-' :: whole else whole) d) (ha : Apart d.rest)
    (hcaret : ∀ e, ¬ Token '^' d e) (hmark : ∀ e, ¬ Token '!' d e) :
    Derives factorial (if negative then 3 else 2) (.chain .sum) c
      (if negative then .negation (.number (ofDigits whole)) else .number (ofDigits whole)) d := by
  have hnext : ∀ x, d.next? = some x → startsFactor x = false := fun x hx => (ha x hx).1
  cases negative with
  | false => exact (Derives.plain (derives_digits h hg hs ha) hcaret).alone hmark hnext
  | true =>
    let c₁ : Cursor := ⟨whole ++ d.rest, c₀.position + 1⟩
    have hminus : Token '-' c c₁ := hg.token ⟨[], Text.blank_nil, hs.1, rfl⟩
    have hspan : Spans c₁ whole d := ⟨rfl, by rw [hs.2]; simp [c₁]; omega⟩
    exact (Derives.minus hminus (.plain (derives_digits h (Gap.refl c₁) hspan ha) hcaret)).alone hmark hnext

theorem Placed.not_token (h : m.Placed c d) {x : Char} (hb : isBlank x = false) (hx : x.isDigit = false) (e : Cursor) :
    ¬ Token x d e := by
  intro ht
  obtain ⟨y, hy, hd⟩ := h.numerator
  rw [((token_iff hb).mp ht).1] at hy
  cases hy
  rw [hd] at hx
  cases hx

theorem Placed.apart (h : m.Placed c d) : Apart d.rest := by
  obtain ⟨x, hx, hb⟩ := h.blank
  obtain ⟨t, ht⟩ := List.head?_eq_some_iff.mp hx
  rw [ht]
  exact apart_of_isBlank hb t

theorem Placed.derives (h : m.Placed c d) : Derives factorial m.headDepth (.chain .sum) c m.head d := by
  obtain ⟨c₀, hg, hs⟩ := h.reaches
  exact derives_signed m.negative h.digits hg hs h.apart (h.not_token rfl rfl) (h.not_token rfl rfl)

/-- It is read whenever enough parts may be open. -/
theorem Placed.reads (h : m.Placed c d) {size n : Nat} (hs : c.rest.length ≤ size) (hn : m.headDepth ≤ n) :
    expression size (factor factorial size n) c = (m.head, d) := by
  have hstops : Part.Stops (.chain .sum) d := by
    intro op _
    exact h.not_token (isBlank_symbol op) (by cases op <;> rfl)
  rcases reads_or_breaks h.derives trivial hs hstops n with hr | ⟨hlt, _⟩
  · exact hr
  · omega

theorem Placed.tooDeep (h : m.Placed c d) {size n : Nat} (hn : n < m.headDepth) :
    (expression size (factor factorial size n) c).1.TooDeep := by
  rcases n with _ | _ | n
  · exact (starts_expression (factor factorial size 0) c).tooDeep ⟨c.position, rfl⟩
  · refine ((starts_factor factorial size 0 c).trans (starts_expression (factor factorial size 1) c)).tooDeep ?_
    exact ⟨c.position, rfl⟩
  · have hm : m.negative = true := by
      cases hm : m.negative with
      | true => rfl
      | false =>
        simp only [headDepth, hm, Bool.false_eq_true, if_false] at hn
        omega
    obtain rfl : n = 0 := by simp only [headDepth, hm, if_true] at hn; omega
    obtain ⟨c₀, hg, hs⟩ := h.reaches
    simp only [first, hm, if_true] at hs
    have hminus : Token '-' c ⟨m.whole ++ d.rest, c₀.position + 1⟩ := hg.token ⟨[], Text.blank_nil, hs.1, rfl⟩
    have hplus : c.eat? '+' = none :=
      (eat?_eq_none_iff rfl).mpr fun d ht => absurd (ht.symbol_unique rfl rfl hminus) (by decide)
    refine ((starts_factor factorial size 1 c).trans (starts_expression (factor factorial size 2) c)).tooDeep ?_
    simp only [unary, hplus, (eat?_eq_some_iff rfl).mpr hminus]
    exact ⟨c₀.position + 1, rfl⟩

/-! ## (3) What the grammar answers -/

/-- The grammar gets past the whole number. -/
def Passed (m : MixedNumber) (k : Nat) : Prop :=
  2 * k + m.headDepth ≤ depthLimit ∧ (ofDigits m.whole).isFinite = true

theorem head_value_of_isFinite (s : Setting) (h : (ofDigits m.whole).isFinite = true) :
    ∃ x, m.head.value s = .ok x := by
  unfold head
  split <;> simp [Expression.value, checked, h, Except.mapError, bind, Except.bind, pure, Except.pure]

theorem head_value_of_not_isFinite (s : Setting) (h : (ofDigits m.whole).isFinite = false) :
    m.head.value s = .error (.domain .overflow) := by
  unfold head
  split <;> simp [Expression.value, checked, h, Except.mapError, bind, Except.bind]

/-- Behind the whole number the grammar finds the first digit of the numerator. -/
theorem Placed.enclosed (h : m.Placed c d) (factorial : Bool) {size n : Nat} (hs : c.rest.length ≤ size)
    (hn : m.headDepth ≤ n) (opened : Nat) : ∃ y p,
      (enclosed size (factor factorial size n) opened c).1 = .faultAfter m.head (.unexpectedCharacter y p) := by
  obtain ⟨y, hy, _⟩ := h.numerator
  have hclose : d.eat? ')' = none := (eat?_eq_none_iff rfl).mpr (h.not_token rfl rfl)
  obtain ⟨t, ht⟩ := List.head?_eq_some_iff.mp hy
  exact ⟨y, d.skipBlanks.position, by simp [Expression.enclosed, h.reads hs hn, hclose, ht, Cursor.unexpected, hy]⟩

variable {s : Setting} {language : Language} {t : Text} {k : Nat}

theorem wrapped_ne_nil (h : m.Wrapped k t) : t ≠ [] := by
  intro ht
  subst ht
  obtain ⟨c, lead, u, after, ho, _, ⟨hd, gap, hn, _, rfl⟩, hc⟩ := h.opens
  have hlen := ho.ahead.length_le
  have := List.length_pos_iff.mpr hn
  simp only [hc, Cursor.start, List.length_append, List.length_nil] at hlen
  omega

theorem grammarValue_of_passed (h : m.Wrapped k t) (ht : t.Trimmed) (hp : m.Passed k) :
    ∃ y p, grammarValue s language t = .error (.grammar (.unexpectedCharacter y p)) := by
  obtain ⟨hdepth, hfinite⟩ := hp
  obtain ⟨x, hx⟩ := head_value_of_isFinite s hfinite
  obtain ⟨c, lead, u, after, ho, hl, hs, hc⟩ := h.opens
  obtain ⟨d, hplaced⟩ := placed_of_spells hl hs hc
  have hlen : c.rest.length ≤ t.length := ho.ahead.length_le
  have fault {y : Char} {p : Nat} {e : Expression} (hst : Starts (.faultAfter m.head (.unexpectedCharacter y p)) e) :
      e.value s = .error (.grammar (.unexpectedCharacter y p)) :=
    hst.value_error (bind_eq_error.mpr (Or.inr ⟨x, hx, rfl⟩))
  cases k with
  | zero =>
    cases ho
    obtain ⟨y, hy, _⟩ := hplaced.numerator
    obtain ⟨u, hu⟩ := List.head?_eq_some_iff.mp hy
    have hread : read language.factorial t = .faultAfter m.head (.unexpectedCharacter y d.skipBlanks.position) := by
      rw [read_eq ht (wrapped_ne_nil h), hplaced.reads hlen (by omega)]
      simp [hu, Cursor.unexpected, hy]
    rw [grammarValue, hread]
    exact ⟨_, _, fault .refl⟩
  | succ j =>
    obtain ⟨c₁, ho, htoken⟩ := ho.exists_last
    obtain ⟨n, hn⟩ : ∃ n, depthLimit = n + 2 + 2 * j := ⟨depthLimit - 2 - 2 * j, by omega⟩
    obtain ⟨opened, hst⟩ := starts_of_parenthesis language.factorial t.length htoken n
    obtain ⟨y, p, he⟩ := hplaced.enclosed language.factorial hlen (by omega : m.headDepth ≤ n) opened
    have hall := starts_opens language.factorial t.length ho (n + 2)
    rw [← hn] at hall
    rw [he] at hst
    exact ⟨y, p, fault (hst.trans (hall.trans (starts_read _ ht (wrapped_ne_nil h))))⟩

theorem passed_of_grammarValue (h : m.Wrapped k t) (ht : t.Trimmed) {error : SyntaxError}
    (hv : grammarValue s language t = .error (.grammar error)) (hn : ∀ p, error ≠ .nestedTooDeeply p) :
    m.Passed k := by
  obtain ⟨c, lead, u, after, ho, hl, hs, hc⟩ := h.opens
  obtain ⟨d, hplaced⟩ := placed_of_spells hl hs hc
  have hread := starts_read language.factorial ht (wrapped_ne_nil h)
  have hdeep : ¬ (read language.factorial t).TooDeep := by
    intro ⟨p, hp⟩
    rw [firstFault?_of_value hv] at hp
    exact hn p (Option.some.inj hp)
  have hdepth : 2 * k + m.headDepth ≤ depthLimit := by
    refine Nat.le_of_not_lt fun hlt => hdeep (hread.tooDeep ?_)
    by_cases hk : depthLimit ≤ 2 * k
    · obtain ⟨p, hp⟩ := starts_fault_of_opens language.factorial t.length ho hk
      exact hp.tooDeep ⟨p, rfl⟩
    · obtain ⟨n, hn⟩ : ∃ n, depthLimit = n + 2 * k := ⟨depthLimit - 2 * k, by omega⟩
      have hall := starts_opens language.factorial t.length ho n
      rw [← hn] at hall
      exact hall.tooDeep (hplaced.tooDeep (by omega))
  refine ⟨hdepth, ?_⟩
  cases hf : (ofDigits m.whole).isFinite with
  | true => rfl
  | false =>
    obtain ⟨n, hn⟩ : ∃ n, depthLimit = n + 2 * k := ⟨depthLimit - 2 * k, by omega⟩
    have hall := starts_opens language.factorial t.length ho n
    rw [← hn, hplaced.reads (show c.rest.length ≤ t.length from ho.ahead.length_le) (by omega)] at hall
    have he := (hall.trans hread).value_error (head_value_of_not_isFinite s hf)
    rw [grammarValue, he] at hv
    cases hv

/-- Every mixed number in parentheses that the grammar leaves open has its value from its form. -/
theorem evaluate_wrapped (h : m.Wrapped k t) {error : SyntaxError} (hf : language.fractions = true)
    (hv : grammarValue s language t.trim = .error (.grammar error)) (hn : ∀ p, error ≠ .nestedTooDeeply p) :
    evaluate s language t = m.value.mapError .domain := by
  have hopen {error : SyntaxError} (hn : ∀ p, error ≠ .nestedTooDeeply p) :
      (language.fractions && leavesOpen (.grammar error)) = true := by
    rw [hf]
    cases error with
    | nestedTooDeeply p => exact absurd rfl (hn p)
    | _ => rfl
  induction h generalizing s error with
  | @bare lead u trail hl hr hs =>
    have htrim := Text.trim_eq hl hr (trimmed_of_spells hs)
    refine evaluate_of_mixed hv (hopen hn) (FractionForm.ofText_eq_mixed.mpr ?_)
    exact ofText?_eq_some_iff.mpr ⟨[], u, [], Text.blank_nil, Text.blank_nil, by rw [htrim]; simp, hs⟩
  | @layer k lead inner trail hl hr hw ih =>
    have htrim := Text.trim_eq hl hr (trimmed_parentheses inner)
    have hpassed := passed_of_grammarValue (Wrapped.layer hl hr hw).trim (Text.trimmed_trim _) hv hn
    have hinner : m.Passed k := ⟨by have := hpassed.1; omega, hpassed.2⟩
    rw [evaluate_of_enclosed hv (hopen hn) (FractionForm.ofText_eq_enclosed.mpr htrim)]
    obtain ⟨y, p, hv'⟩ := grammarValue_of_passed hw.trim (Text.trimmed_trim _) hinner
    exact ih hv' (fun _ h => nomatch h)

end MixedNumber

/-! ## (4) The values outside the grammar -/

namespace Expression

/-- With the fraction forms, a text that the grammar refuses has a value exactly if it is a mixed
number in parentheses, is not too deep for the grammar, and its denominator is not zero. No quotient
has a value that the grammar does not give. -/
theorem fractions_are_wrapped_mixed_numbers (s : Setting) (factorial : Bool) (t : Text) :
    let language : Language := ⟨factorial, true⟩
    (∀ e v, grammarValue s language t.trim = .error (.grammar e) → evaluate s language t = .ok v →
      ∃ m k, MixedNumber.Wrapped m k t ∧ m.denominator.decimalValue ≠ 0 ∧ v = m.total) ∧
    (∀ e numerator denominator, grammarValue s language t.trim = .error (.grammar e) →
      FractionForm.ofText t.trim = .quotient numerator denominator →
      (leavesOpen (.grammar e) = true →
        ∀ s₁ s₂ x y, ¬ (evaluate s₁ language numerator = .ok x ∧ evaluate s₂ language denominator = .ok y)) ∧
      ∀ v, evaluate s language t ≠ .ok v) ∧
    ∀ m k e, MixedNumber.Wrapped m k t → grammarValue s language t.trim = .error (.grammar e) →
      (∀ p, e ≠ .nestedTooDeeply p) →
      evaluate s language t =
        if m.denominator.decimalValue = 0 then .error (.domain .zeroDenominator) else .ok m.total := by
  intro language
  refine ⟨fun e v hg hv => ?_, fun e numerator denominator hg hf => ⟨fun ho s₁ s₂ x y => ?_, fun v hv => ?_⟩,
    fun m k e hw hg hn => ?_⟩
  · obtain ⟨m, k, hw, hm⟩ := wrapped_of_evaluate hg hv
    rw [MixedNumber.value_eq] at hm
    split at hm
    · cases hm
    · rename_i h0
      cases hm
      exact ⟨m, k, hw, h0, rfl⟩
  · exact quotient_has_no_value hg ho hf
  · obtain ⟨ho, hcases⟩ := evaluate_cases hg hv
    rcases hcases with ⟨m, hm, _⟩ | ⟨inner, hi, _⟩ | ⟨n, d, x, y, hq, hx, hy⟩
    · rw [hf] at hm
      cases hm
    · rw [hf] at hi
      cases hi
    · exact quotient_has_no_value hg (Bool.and_eq_true_iff.mp ho).2 hq ⟨hx, hy⟩
  · rw [MixedNumber.evaluate_wrapped hw rfl hg hn, MixedNumber.value_eq]
    split <;> rfl

/-- Two and a half in parentheses has a value by its form; a sum that ends before a slash has none. -/
theorem fractions_are_wrapped_mixed_numbers_two_and_a_half :
    let s : Setting := ⟨⟨fun _ x => x, fun x _ => x⟩, fun _ => ⟨0, twoPow_pos 53⟩⟩
    let t : Text := ['(', '2', ' ', '1', '/', '2', ')']
    let m : MixedNumber := ⟨false, ['2'], ['1'], ['2']⟩
    let u : Text := ['2', '+', '/', '3']
    (MixedNumber.Wrapped m 1 t ∧ grammarValue s .full t.trim = .error (.grammar (.unexpectedCharacter '1' 3)) ∧
      evaluate s .full t = .ok m.total ∧
      ∃ m' k, MixedNumber.Wrapped m' k t ∧ m'.denominator.decimalValue ≠ 0 ∧ m.total = m'.total) ∧
    grammarValue s .full u.trim = .error (.grammar (.unexpectedCharacter '/' 2)) ∧
    FractionForm.ofText u.trim = .quotient ['2', '+'] ['3'] ∧ ∀ v, evaluate s .full u ≠ .ok v := by
  intro s t m u
  have hspells : m.Spells ['2', ' ', '1', '/', '2'] :=
    ⟨⟨by decide, by decide, by decide⟩, [' '], by decide, by simp [Blank, isBlank], by decide⟩
  have hw : MixedNumber.Wrapped m 1 t := .layer Text.blank_nil Text.blank_nil (.bare Text.blank_nil Text.blank_nil hspells)
  have hg : grammarValue s .full t.trim = .error (.grammar (.unexpectedCharacter '1' 3)) :=
    failure?_eq_some.mp (by decide +kernel)
  have hv := (fractions_are_wrapped_mixed_numbers s true t).2.2 m 1 _ hw hg (fun _ h => by cases h)
  rw [if_neg (by decide)] at hv
  have hgu : grammarValue s .full u.trim = .error (.grammar (.unexpectedCharacter '/' 2)) :=
    failure?_eq_some.mp (by decide +kernel)
  have hf : FractionForm.ofText u.trim = .quotient ['2', '+'] ['3'] := by decide +kernel
  exact ⟨⟨hw, hg, hv, (fractions_are_wrapped_mixed_numbers s true t).1 _ _ hg hv⟩, hgu, hf,
    ((fractions_are_wrapped_mixed_numbers s true u).2.1 _ _ _ hgu hf).2⟩

end Expression

end Positional
