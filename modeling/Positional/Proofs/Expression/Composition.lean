/-
  Positional.Proofs.Expression.Composition — values of texts that are put together with parentheses.

  In parentheses a text with a value is an atom, wherever they stand (`Derives.parenthesized`), and
  what comes after the closing one does not reach into them. So operators, signs, names and marks
  around such atoms give operations on their values. The parts need more depth than the
  texts in them: what is put together may break off for its depth, and does nothing else
  (`gives_of_derives`).

  A pair of parentheses around an accepted text may already be one too many
  (`parentheses_too_deep`).
-/
import Positional.Proofs.Expression.Draws
import Positional.Proofs.Expression.Fractions
import Positional.Proofs.Text.LetterCase

namespace Positional

open Cursor

/-- Before the symbol of a token come only blanks. -/
theorem Cursor.Token.eq_of_next {x y : Char} {c d : Cursor} (h : Token x c d) (hy : c.next? = some y)
    (hb : isBlank y = false) : x = y := by
  obtain ⟨w, hw, hs, _⟩ := h
  rw [Cursor.next?, hs] at hy
  cases w with
  | nil => exact Option.some.inj hy
  | cons z w =>
    cases hy
    exact absurd List.mem_cons_self (hw.notMem hb)

namespace Expression

/-! ## (1) More depth -/

variable {factorial : Bool}

theorem Derives.mono {n m : Nat} {part : Part} {c d : Cursor} {e : Expression} (h : Derives factorial n part c e d)
    (hm : n ≤ m) : Derives factorial m part c e d := by
  have below {n m : Nat} (h : n + 1 ≤ m) : ∃ k, m = k + 1 ∧ n ≤ k := ⟨m - 1, by omega, by omega⟩
  induction h generalizing m with
  | chain _ _ ih ih' => exact .chain (ih hm) (ih' hm)
  | last => exact .last
  | link hop ht _ _ ih ih' => exact .link hop ht (ih hm) (ih' hm)
  | factor _ hp _ ih ih' =>
    obtain ⟨k, rfl, hk⟩ := below hm
    exact .factor (ih hk) hp (ih' hk)
  | lastProduct hn => exact .lastProduct hn
  | product hx hs _ _ ih ih' => exact .product hx hs (ih hm) (ih' hm)
  | plus ht _ ih =>
    obtain ⟨k, rfl, hk⟩ := below hm
    exact .plus ht (ih hk)
  | minus ht _ ih =>
    obtain ⟨k, rfl, hk⟩ := below hm
    exact .minus ht (ih hk)
  | plain _ hc ih =>
    obtain ⟨k, rfl, hk⟩ := below hm
    exact .plain (ih hk) hc
  | power _ ht _ ih ih' =>
    obtain ⟨k, rfl, hk⟩ := below hm
    exact .power (ih hk) ht (ih' hk)
  | decimal hg hs hspan hx => exact .decimal hg hs hspan hx
  | hexadecimal hg hm' hs hr hlt => exact .hexadecimal hg hm' hs hr hlt
  | parentheses ht _ ht' ih => exact .parentheses ht (ih hm) ht'
  | constant hg hr hk => exact .constant hg hr hk
  | function hg hr hk _ ih => exact .function hg hr hk (ih hm)
  | root ht _ ih => exact .root ht (ih hm)

/-! ## (2) From atoms to expressions -/

/-- Nothing that comes next is taken into a factor that ends here. -/
structure Ends (d : Cursor) : Prop where
  power : ∀ d', ¬ Token '^' d d'
  mark : ∀ d', ¬ Token '!' d d'
  product : ∀ x, d.next? = some x → startsFactor x = false

theorem ends_of_nil {d : Cursor} (h : d.rest = []) : Ends d := by
  refine ⟨not_token_of_nil h '^', not_token_of_nil h '!', fun x hx => ?_⟩
  rw [Cursor.next?, h] at hx
  cases hx

theorem startsFactor_symbol (op : Operator) : startsFactor op.symbol = false := by
  cases op <;> decide +kernel

/-- A factor ends before an operator other than the power. -/
theorem ends_of_token {op : Operator} (hop : op ≠ .power) {d e : Cursor} (h : Token op.symbol d e) : Ends d := by
  refine ⟨fun d' ht => ?_, fun d' ht => ?_, fun x hx => ?_⟩
  · exact hop (symbol_injective (h.symbol_unique (isBlank_symbol op) rfl ht))
  · have apart : ∀ op : Operator, op.symbol ≠ '!' := by intro op; cases op <;> decide
    exact apart op (h.symbol_unique (isBlank_symbol op) rfl ht)
  · by_contra hf
    rw [Bool.not_eq_false] at hf
    have hsymbol : op.symbol = x := h.eq_of_next hx (isBlank_of_startsFactor hf)
    rw [← hsymbol, startsFactor_symbol op] at hf
    cases hf

variable {n : Nat} {c c₁ c₂ d : Cursor} {e e₁ e₂ : Expression}

theorem Derives.unary_factor (h : Derives factorial n .unary c e d) (hd : Ends d) :
    Derives factorial (n + 1) .factor c e d :=
  .factor h (.none fun _ => hd.mark) (.lastProduct hd.product)

theorem Derives.atom_factor (h : Derives factorial n .atom c e d) (hd : Ends d) :
    Derives factorial (n + 2) .factor c e d :=
  Derives.unary_factor (.plain h hd.power) hd

theorem Derives.factor_term (h : Derives factorial n .factor c e d) : Derives factorial n (.chain .term) c e d :=
  .chain h .last

theorem Derives.factor_sum (h : Derives factorial n .factor c e d) : Derives factorial n (.chain .sum) c e d :=
  .chain h.factor_term .last

/-- Two atoms with an operator between them. -/
theorem Derives.operation {op : Operator} (h₁ : Derives factorial n .atom c e₁ c₁) (ht : Token op.symbol c₁ c₂)
    (h₂ : Derives factorial n .atom c₂ e₂ d) (hd : Ends d) :
    ∃ m, Derives factorial m (.chain .sum) c (.binary op e₁ e₂) d := by
  have hf₁ (ho : op ≠ .power) := h₁.atom_factor (ends_of_token ho ht)
  have hf₂ := h₂.atom_factor hd
  have sum (hop : op ∈ Tier.sum.operators) (ho : op ≠ .power) :
      Derives factorial (n + 2) (.chain .sum) c (.binary op e₁ e₂) d :=
    .chain (hf₁ ho).factor_term (.link hop ht hf₂.factor_term .last)
  have term (hop : op ∈ Tier.term.operators) (ho : op ≠ .power) :
      Derives factorial (n + 2) (.chain .sum) c (.binary op e₁ e₂) d := by
    have hterm : Derives factorial (n + 2) (.chain .term) c (.binary op e₁ e₂) d :=
      .chain (hf₁ ho) (.link hop ht hf₂ .last)
    exact .chain hterm .last
  cases op with
  | add | subtract => exact ⟨_, sum (by decide) (by decide)⟩
  | multiply | divide | remainder => exact ⟨_, term (by decide) (by decide)⟩
  | power =>
    have hu : Derives factorial (n + 3) .unary c (.binary .power e₁ e₂) d := .power (h₁.mono (by omega)) ht hf₂
    exact ⟨_, (hu.unary_factor hd).factor_sum⟩

/-- Two atoms, the second one right after the first. -/
theorem Derives.juxtaposition {x : Char} (h₁ : Derives factorial n .atom c e₁ c₁) (hx : c₁.next? = some x)
    (hs : startsFactor x = true) (hm : ∀ d, ¬ Token '!' c₁ d) (hp : ∀ d, ¬ Token '^' c₁ d)
    (h₂ : Derives factorial n .atom c₁ e₂ d) (hd : Ends d) :
    Derives factorial (n + 3) (.chain .sum) c (.binary .multiply e₁ e₂) d := by
  have hu : Derives factorial (n + 2) .unary c e₁ c₁ := .plain (h₁.mono (Nat.le_succ n)) hp
  have hproducts : Derives factorial (n + 2) (.products e₁) c₁ (.binary .multiply e₁ e₂) d :=
    .product hx hs (h₂.atom_factor hd) (.lastProduct hd.product)
  exact (Derives.factor hu (.none fun _ => hm) hproducts).factor_sum

theorem Derives.signed (ht : Token '-' c c₁) (h : Derives factorial n .atom c₁ e d) (hd : Ends d) :
    Derives factorial (n + 3) (.chain .sum) c (.negation e) d :=
  ((Derives.minus ht (.plain h hd.power)).unary_factor hd).factor_sum

theorem Derives.marked (h : Derives true n .atom c e c₁) (hp : ∀ d, ¬ Token '^' c₁ d) (ht : Token '!' c₁ d)
    (hd : Ends d) : Derives true (n + 2) (.chain .sum) c (.factorial e) d :=
  (Derives.factor (.plain h hp) (.mark rfl ht) (.lastProduct hd.product)).factor_sum

/-! ## (3) Names of functions -/

theorem isAlpha_of_fold {x : Char} (h : (Identifier.fold x).isAlpha = true) : x.isAlpha = true := by
  unfold Identifier.fold at h
  split at h
  · cases h
  · rwa [apply_toLower (f := Char.isAlpha) (by decide)] at h

theorem root_of_fold {x : Char} (h : Identifier.fold x = '√') : x = '√' := by
  unfold Identifier.fold at h
  split at h
  · exact absurd h (by decide)
  · exact eq_of_toLower_eq (y := '√') h rfl

/-- A function is named by letters, or by the root sign. -/
theorem letters_of_function {name : Text} {f : Function} (h : Identifier.ofText? name = some (.function f)) :
    (name = ['√'] ∧ f = .squareRoot) ∨ (name ≠ [] ∧ ∀ x ∈ name, isAlphabetic x = true) := by
  have table : ∀ entry ∈ Identifier.names, entry = (['π'], .constant .pi) ∨ entry = (['√'], .function .squareRoot) ∨
      (entry.1 ≠ [] ∧ entry.1.all Char.isAlpha = true) := by decide
  obtain ⟨before, after, hn, _⟩ := List.lookup_eq_some_iff.mp h
  have hm : (name.map Identifier.fold, Identifier.function f) ∈ Identifier.names := by
    rw [hn]
    exact List.mem_append_right _ List.mem_cons_self
  rcases table _ hm with he | he | ⟨hne, hall⟩
  · cases (Prod.mk.inj he).2
  · obtain ⟨hname, hf⟩ := Prod.mk.inj he
    obtain ⟨x, u, rfl, hx, hu⟩ := List.map_eq_cons_iff.mp hname
    rw [List.map_eq_nil_iff.mp hu, root_of_fold hx]
    exact Or.inl ⟨rfl, Identifier.function.inj hf⟩
  · refine Or.inr ⟨fun hnil => hne (by rw [hnil]; rfl), fun x hm => ?_⟩
    exact isAlphabetic_of_isAlpha (isAlpha_of_fold (List.all_eq_true.mp hall _ (List.mem_map_of_mem hm)))

/-- An atom in parentheses as the argument of a function. -/
theorem Derives.applied {name : Text} {f : Function} (hname : Identifier.ofText? name = some (.function f))
    (hs : Spans c name c₁) (hc : c₁.next? = some '(') (h : Derives factorial n .atom c₁ e d) (hd : Ends d) :
    Derives factorial (n + 4) (.chain .sum) c (.call f e) d := by
  have hargument := h.atom_factor hd
  have hatom : Derives factorial (n + 2) .atom c (.call f e) d := by
    rcases letters_of_function hname with ⟨rfl, rfl⟩ | ⟨hne, hx⟩
    · exact .root ⟨[], Text.blank_nil, hs⟩ hargument
    · refine .function (Gap.refl c) ⟨hs, hne, hx, fun x hn => ?_⟩ hname hargument
      rw [hc] at hn
      cases hn
      exact isAlphabetic_symbols '(' (by simp)
  exact (hatom.atom_factor hd).factor_sum

/-! ## (4) Whole texts -/

def inParentheses (t : Text) : Text := '(' :: (t ++ [')'])

/-- The answer of the grammar and of evaluation is `r`, or that the text is nested too deeply. -/
def Gives (s : Setting) (language : Language) (t : Text) (r : Except DomainError Binary64) : Prop :=
  ∃ answer, grammarValue s language t = answer ∧ evaluate s language t = answer ∧
    (answer = r.mapError .domain ∨ ∃ p, answer = .error (.grammar (.nestedTooDeeply p)))

variable {s : Setting} {language : Language}

/-- What is derived at any depth gives its value. -/
theorem gives_of_derives {m : Nat} {t : Text} {r : Except DomainError Binary64}
    (h : Derives language.factorial m (.chain .sum) (Cursor.start t) e d) (hb : Blank d.rest) (ht : t.trim = t)
    (hv : e.value s = r.mapError .domain) : Gives s language t r := by
  refine ⟨grammarValue s language t, rfl, ?_, ?_⟩
  · cases hg : grammarValue s language t with
    | ok x => exact evaluate_of_value (by rw [ht, hg])
    | error error =>
      have hclosed : leavesOpen error = false := closed_of_derives h hb hg
      exact evaluate_of_closed (by rw [ht, hg]) (by rw [hclosed, Bool.and_false])
  · rw [← hv]
    rcases read_or_breaks h hb with hr | ⟨_, _, hr⟩
    · exact Or.inl (by rw [grammarValue, hr])
    · exact (hr s).symm

/-- An accepted text is an atom when it stands in parentheses. -/
theorem exists_atom {t : Text} {v : Binary64} (hr : RandFree t) (hv : grammarValue s language t = .ok v) (k : Nat)
    (after : Text) : ∃ e, Derives language.factorial depthLimit .atom ⟨inParentheses t ++ after, k⟩ e
      ⟨after, k + t.length + 2⟩ ∧ e.value s = .ok v := by
  obtain ⟨d, hd, hb⟩ : Derivation language.factorial t _ := read_iff.mpr ⟨rfl, isComplete_of_value hv⟩
  have hatom := hd.parenthesized hb k after
  have he : '(' :: (t ++ ')' :: after) = inParentheses t ++ after := by
    rw [inParentheses, List.cons_append, List.append_assoc, List.singleton_append]
  rw [he] at hatom
  exact ⟨_, hatom, (value_shifted (hd.isDrawless hr trivial) rfl (k + 1)).trans hv⟩

theorem trim_of_ends {t : Text} {x y : Char} (hx : t.head? = some x) (hy : t.getLast? = some y)
    (hbx : isBlank x = false) (hby : isBlank y = false) : t.trim = t := by
  have ht : t.Trimmed := by
    refine ⟨fun z hz => ?_, fun z hz => ?_⟩
    · rw [hx] at hz
      cases hz
      exact hbx
    · rw [hy] at hz
      cases hz
      exact hby
  simpa using Text.trim_eq Text.blank_nil Text.blank_nil ht

theorem getLast?_inParentheses (lead t : Text) : (lead ++ inParentheses t).getLast? = some ')' := by
  simp [inParentheses, List.getLast?_append, List.getLast?_cons]

/-! ## (5) The forms -/

section Forms

variable {A B : Text} {a b : Binary64} (hA : RandFree A) (ha : grammarValue s language A = .ok a) (hB : RandFree B)
  (hb : grammarValue s language B = .ok b)

include hA ha

/-- In parentheses at the end of a text, an accepted text is an atom that ends there. -/
theorem exists_last_atom (k : Nat) : ∃ e d, Derives language.factorial depthLimit .atom ⟨inParentheses A, k⟩ e d ∧
    e.value s = .ok a ∧ Ends d ∧ Blank d.rest := by
  obtain ⟨e, he, hv⟩ := exists_atom hA ha k []
  rw [List.append_nil] at he
  exact ⟨e, _, he, hv, ends_of_nil rfl, Text.blank_nil⟩

theorem gives_parentheses : Gives s language (inParentheses A) (.ok a) := by
  obtain ⟨e, d, he, hv, hd, hblank⟩ := exists_last_atom hA ha 0
  have ht : (inParentheses A).trim = inParentheses A :=
    trim_of_ends (x := '(') rfl (getLast?_inParentheses [] A) rfl rfl
  exact gives_of_derives (he.atom_factor hd).factor_sum hblank ht hv

theorem gives_negation : Gives s language ('-' :: inParentheses A) (.ok a.neg) := by
  obtain ⟨e, d, he, hv, hd, hblank⟩ := exists_last_atom hA ha 1
  have h := Derives.signed (c := Cursor.start ('-' :: inParentheses A)) ⟨[], Text.blank_nil, rfl, rfl⟩ he hd
  have ht : Text.trim ('-' :: inParentheses A) = '-' :: inParentheses A :=
    trim_of_ends (x := '-') rfl (getLast?_inParentheses ['-'] A) rfl rfl
  refine gives_of_derives h hblank ht ?_
  simp only [value, hv]
  rfl

theorem gives_application {name : Text} {f : Function} (hname : Identifier.ofText? name = some (.function f)) :
    Gives s language (name ++ inParentheses A) (f.apply s.elementary a) := by
  obtain ⟨e, d, he, hv, hd, hblank⟩ := exists_last_atom hA ha name.length
  have hs : Spans (Cursor.start (name ++ inParentheses A)) name ⟨inParentheses A, name.length⟩ :=
    ⟨rfl, (Nat.zero_add _).symm⟩
  obtain ⟨x, hx, hbx⟩ : ∃ x, name.head? = some x ∧ isBlank x = false := by
    rcases letters_of_function hname with ⟨rfl, _⟩ | ⟨hne, hall⟩
    · exact ⟨'√', rfl, rfl⟩
    · obtain ⟨x, u, rfl⟩ := List.exists_cons_of_ne_nil hne
      exact ⟨x, rfl, isBlank_of_startsFactor (startsFactor_of_isAlphabetic (hall x List.mem_cons_self))⟩
  have ht : (name ++ inParentheses A).trim = name ++ inParentheses A :=
    trim_of_ends (by rw [List.head?_append, hx]; rfl) (getLast?_inParentheses name A) hbx rfl
  refine gives_of_derives (Derives.applied hname hs rfl he hd) hblank ht ?_
  simp only [value, hv]
  rfl

theorem gives_factorial (hf : language.factorial = true) :
    Gives s language (inParentheses A ++ ['!']) (Positional.factorial a) := by
  obtain ⟨e, he, hv⟩ := exists_atom hA ha 0 ['!']
  rw [hf] at he
  have hp (d : Cursor) : ¬ Token '^' ⟨['!'], 0 + A.length + 2⟩ d := fun h =>
    absurd (h.eq_of_next (y := '!') rfl rfl) (by decide)
  have hmark : Token '!' ⟨['!'], 0 + A.length + 2⟩ ⟨[], 0 + A.length + 2 + 1⟩ := ⟨[], Text.blank_nil, rfl, rfl⟩
  have h := he.marked hp hmark (ends_of_nil rfl)
  rw [← hf] at h
  have ht : (inParentheses A ++ ['!']).trim = inParentheses A ++ ['!'] :=
    trim_of_ends (x := '(') (y := '!') rfl (by simp) rfl rfl
  refine gives_of_derives h Text.blank_nil ht ?_
  simp only [value, hv]
  rfl

include hB hb

theorem gives_operation (op : Operator) :
    Gives s language (inParentheses A ++ op.symbol :: inParentheses B) (op.apply s.elementary a b) := by
  obtain ⟨e₁, h₁, hv₁⟩ := exists_atom hA ha 0 (op.symbol :: inParentheses B)
  obtain ⟨e₂, d, h₂, hv₂, hd, hblank⟩ := exists_last_atom hB hb (0 + A.length + 2 + 1)
  have htoken : Token op.symbol ⟨op.symbol :: inParentheses B, 0 + A.length + 2⟩
      ⟨inParentheses B, 0 + A.length + 2 + 1⟩ := ⟨[], Text.blank_nil, rfl, rfl⟩
  obtain ⟨m, h⟩ := h₁.operation htoken h₂ hd
  have ht : (inParentheses A ++ op.symbol :: inParentheses B).trim = inParentheses A ++ op.symbol :: inParentheses B := by
    have hlast := getLast?_inParentheses (inParentheses A ++ [op.symbol]) B
    rw [List.append_assoc, List.singleton_append] at hlast
    exact trim_of_ends (x := '(') rfl hlast rfl rfl
  refine gives_of_derives h hblank ht ?_
  simp only [value, hv₁, hv₂]
  rfl

theorem gives_juxtaposition :
    Gives s language (inParentheses A ++ inParentheses B) (Operator.multiply.apply s.elementary a b) := by
  obtain ⟨e₁, h₁, hv₁⟩ := exists_atom hA ha 0 (inParentheses B)
  obtain ⟨e₂, d, h₂, hv₂, hd, hblank⟩ := exists_last_atom hB hb (0 + A.length + 2)
  have apart {x : Char} {d : Cursor} (hx : x ≠ '(') : ¬ Token x ⟨inParentheses B, 0 + A.length + 2⟩ d := fun h =>
    hx (h.eq_of_next (y := '(') rfl rfl)
  have h := h₁.juxtaposition (x := '(') rfl rfl (fun _ => apart (by decide)) (fun _ => apart (by decide)) h₂ hd
  have ht : (inParentheses A ++ inParentheses B).trim = inParentheses A ++ inParentheses B :=
    trim_of_ends (x := '(') rfl (getLast?_inParentheses _ B) rfl rfl
  refine gives_of_derives h hblank ht ?_
  simp only [value, hv₁, hv₂]
  rfl

/-- The value of what is put together from texts in parentheses is the operation on their values. -/
theorem parentheses_compose :
    (∀ op : Operator, Gives s language (inParentheses A ++ op.symbol :: inParentheses B) (op.apply s.elementary a b)) ∧
    Gives s language (inParentheses A ++ inParentheses B) (Operator.multiply.apply s.elementary a b) ∧
    Gives s language ('-' :: inParentheses A) (.ok a.neg) ∧
    (∀ name f, Identifier.ofText? name = some (.function f) →
      Gives s language (name ++ inParentheses A) (f.apply s.elementary a)) ∧
    (language.factorial = true → Gives s language (inParentheses A ++ ['!']) (Positional.factorial a)) ∧
    Gives s language (inParentheses A) (.ok a) :=
  ⟨gives_operation hA ha hB hb, gives_juxtaposition hA ha hB hb, gives_negation hA ha,
    fun _ _ hname => gives_application hA ha hname, gives_factorial hA ha, gives_parentheses hA ha⟩

end Forms

/-- One more pair of parentheses is too deep around 255 of them, which are accepted. -/
theorem parentheses_too_deep :
    let s : Setting := ⟨⟨fun _ x => x, fun x _ => x⟩, fun _ => ⟨0, twoPow_pos 53⟩⟩
    let A : Text := List.replicate 255 '(' ++ '1' :: List.replicate 255 ')'
    RandFree A ∧ grammarValue s .full A = .ok (.ofNat 1) ∧
      grammarValue s .full (inParentheses A) = .error (.grammar (.nestedTooDeeply 256)) ∧
      grammarValue s .full (inParentheses A) ≠ .ok (.ofNat 1) := by
  intro s A
  have hr : RandFree A := randFree_of_letters (by decide +kernel)
  have ha : grammarValue s .full A = .ok (.ofNat 1) := by decide +kernel
  have hp : grammarValue s .full (inParentheses A) = .error (.grammar (.nestedTooDeeply 256)) := by decide +kernel
  exact ⟨hr, ha, hp, by rw [hp]; exact fun h => nomatch h⟩

/-- The quotient and the product of a sum and a negative number, which have blanks and signs of their own. -/
theorem parentheses_compose_sum_and_negative :
    let s : Setting := ⟨⟨fun _ x => x, fun x _ => x⟩, fun _ => ⟨0, twoPow_pos 53⟩⟩
    let A := " 1 + 2".toList
    let B := "-3 ".toList
    RandFree A ∧ RandFree B ∧ grammarValue s .full A = .ok (.ofNat 3) ∧ grammarValue s .full B = .ok (.ofInt (-3)) ∧
      Gives s .full "( 1 + 2)/(-3 )".toList (.ok (.ofInt (-1))) ∧
      Gives s .full "( 1 + 2)(-3 )".toList (.ok (.ofInt (-9))) ∧
      Gives s .full "aBs( 1 + 2)".toList (.ok (.ofNat 3)) ∧ Gives s .full "( 1 + 2)!".toList (.ok (.ofNat 6)) := by
  intro s A B
  have hA : RandFree A := randFree_of_letters (by decide)
  have hB : RandFree B := randFree_of_letters (by decide)
  have ha : grammarValue s .full A = .ok (.ofNat 3) := by decide +kernel
  have hb : grammarValue s .full B = .ok (.ofInt (-3)) := by decide +kernel
  obtain ⟨hop, hprod, hneg, hfun, hfact, hpar⟩ := parentheses_compose hA ha hB hb
  have hdiv : Operator.divide.apply s.elementary (.ofNat 3) (.ofInt (-3)) = .ok (.ofInt (-1)) := by decide +kernel
  have hmul : Operator.multiply.apply s.elementary (.ofNat 3) (.ofInt (-3)) = .ok (.ofInt (-9)) := by decide +kernel
  have habs : Function.absoluteValue.apply s.elementary (.ofNat 3) = .ok (.ofNat 3) := by decide +kernel
  have hsix : Positional.factorial (.ofNat 3) = .ok (.ofNat 6) := by decide +kernel
  refine ⟨hA, hB, ha, hb, ?_, ?_, ?_, ?_⟩
  · rw [← hdiv]
    exact hop .divide
  · rw [← hmul]
    exact hprod
  · rw [← habs]
    exact hfun "aBs".toList .absoluteValue (by decide)
  · rw [← hsix]
    exact hfact rfl

end Expression

end Positional
