/-
  Positional.Proofs.Text.Cuts — the cuts of a text, told by how the text is put together.

  - Trimming takes a blank text off each end (`exists_trim`) and leaves none there
    (`trimmed_trim`); only one text is left by that (`trim_eq`).
  - `words_eq_cons_iff`: the first word stands after blanks and ends at a blank, or with the text.
  - A text is cut at the first of a character (`cutAt?_append`), if it has one (`cutAt?_eq_none`).
-/
import Positional.Text

namespace Positional

def Blank (w : Text) : Prop := ∀ x ∈ w, isBlank x = true

theorem Blank.notMem {w : Text} {x : Char} (h : Blank w) (hx : isBlank x = false) : x ∉ w := fun hm => by
  have hb := h x hm
  rw [hx] at hb
  cases hb

namespace Text

/-- Neither end is blank. -/
def Trimmed (t : Text) : Prop :=
  (∀ x, t.head? = some x → isBlank x = false) ∧ ∀ x, t.getLast? = some x → isBlank x = false

/-- Characters of a word. -/
def Solid (w : Text) : Prop := w ≠ [] ∧ ∀ x ∈ w, isBlank x = false

/-! ## (1) Blanks at the ends -/

theorem blank_nil : Blank [] := fun _ hx => absurd hx List.not_mem_nil

theorem blank_append {v w : Text} (hv : Blank v) (hw : Blank w) : Blank (v ++ w) := fun x hx =>
  (List.mem_append.mp hx).elim (hv x) (hw x)

theorem blank_reverse {w : Text} (h : Blank w) : Blank w.reverse := fun x hx => h x (List.mem_reverse.mp hx)

theorem dropWhile_blank {w : Text} (h : Blank w) : w.dropWhile isBlank = [] := by
  have hd : (w ++ []).dropWhile isBlank = [].dropWhile isBlank := List.dropWhile_append_of_pos h
  rwa [List.append_nil] at hd

theorem trimStart_append {w r : Text} (hw : Blank w) (hr : ∀ x, r.head? = some x → isBlank x = false) :
    trimStart (w ++ r) = r := by
  rw [trimStart, List.dropWhile_append_of_pos hw]
  cases r with
  | nil => rfl
  | cons x r => rw [List.dropWhile_cons_of_neg (by simpa using hr x rfl)]

theorem head?_trimStart {t : Text} {x : Char} (h : (trimStart t).head? = some x) : isBlank x = false := by
  have := List.head?_dropWhile_not isBlank t
  rw [show t.dropWhile isBlank = trimStart t from rfl, h] at this
  simpa using this

theorem exists_trimStart (t : Text) : ∃ lead, Blank lead ∧ t = lead ++ trimStart t :=
  ⟨t.takeWhile isBlank, fun _ hx => List.all_eq_true.mp List.all_takeWhile _ hx,
    (List.takeWhile_append_dropWhile (p := isBlank)).symm⟩

theorem exists_trimEnd (t : Text) : ∃ trail, Blank trail ∧ trimStart t = t.trim ++ trail := by
  obtain ⟨trail, hb, h⟩ := exists_trimStart (trimStart t).reverse
  refine ⟨trail.reverse, blank_reverse hb, ?_⟩
  rw [trim, ← List.reverse_append, ← h, List.reverse_reverse]

theorem exists_trim (t : Text) : ∃ lead trail, Blank lead ∧ Blank trail ∧ t = lead ++ t.trim ++ trail := by
  obtain ⟨lead, hl, h⟩ := exists_trimStart t
  obtain ⟨trail, ht, h'⟩ := exists_trimEnd t
  exact ⟨lead, trail, hl, ht, by rw [List.append_assoc, ← h', ← h]⟩

theorem trimmed_trim (t : Text) : Trimmed t.trim := by
  obtain ⟨trail, _, h⟩ := exists_trimEnd t
  refine ⟨fun x hx => head?_trimStart (t := t) ?_, fun x hx => head?_trimStart (t := (trimStart t).reverse) ?_⟩
  · rw [h, List.head?_append, hx]
    rfl
  · rwa [trim, List.getLast?_reverse] at hx

theorem trim_eq {lead t trail : Text} (hl : Blank lead) (hr : Blank trail) (ht : Trimmed t) :
    trim (lead ++ t ++ trail) = t := by
  rw [trim, List.append_assoc]
  by_cases hn : t = []
  · subst hn
    rw [List.nil_append, ← List.append_nil (lead ++ trail), trimStart_append (blank_append hl hr) (by simp)]
    rfl
  · have hs : trimStart (lead ++ (t ++ trail)) = t ++ trail := by
      refine trimStart_append hl fun x hx => ht.1 x ?_
      rwa [List.head?_append, Option.or_of_isSome (by simpa using hn)] at hx
    rw [hs, List.reverse_append, trimStart_append (blank_reverse hr) fun x hx => ht.2 x (by rwa [List.head?_reverse] at hx),
      List.reverse_reverse]

theorem trim_trim (t : Text) : t.trim.trim = t.trim := by
  simpa using trim_eq blank_nil blank_nil (trimmed_trim t)

theorem Solid.cons {x : Char} {t : Text} (h : Solid t) (hx : isBlank x = false) : Solid (x :: t) :=
  ⟨List.cons_ne_nil _ _, List.forall_mem_cons.mpr ⟨hx, h.2⟩⟩

theorem Solid.trimmed {t : Text} (h : Solid t) : Trimmed t :=
  ⟨fun x hx => h.2 x (List.mem_of_mem_head? hx), fun x hx => h.2 x (List.mem_of_getLast? hx)⟩

/-- A word is trimmed. -/
theorem trim_of_solid {t : Text} (h : Solid t) : t.trim = t := by
  simpa using trim_eq blank_nil blank_nil h.trimmed

/-! ## (2) Words -/

theorem words_append_cons {x : Char} (hx : isBlank x = true) (t u : Text) :
    words (t ++ x :: u) = words t ++ words u := by
  rw [words, List.splitOnP_append_cons t u hx, List.filter_append]
  rfl

theorem words_append_of_blank {w : Text} (hw : Blank w) (t : Text) : words (w ++ t) = words t := by
  induction w with
  | nil => rfl
  | cons x w ih =>
    rw [List.cons_append, ← List.nil_append (x :: (w ++ t)), words_append_cons (hw x List.mem_cons_self),
      ih fun y hy => hw y (List.mem_cons_of_mem x hy)]
    rfl

theorem words_of_blank {w : Text} (hw : Blank w) : words w = [] := by
  rw [← List.append_nil w, words_append_of_blank hw]
  rfl

theorem words_append_blank {w : Text} (hw : Blank w) (t : Text) : words (t ++ w) = words t := by
  cases w with
  | nil => rw [List.append_nil]
  | cons x w =>
    rw [words_append_cons (hw x List.mem_cons_self), words_of_blank fun y hy => hw y (List.mem_cons_of_mem x hy),
      List.append_nil]

theorem words_trim (t : Text) : words t.trim = words t := by
  obtain ⟨lead, trail, hl, hr, ht⟩ := exists_trim t
  rw [ht, words_append_blank hr, words_append_of_blank hl, ← ht]

theorem words_of_solid {w : Text} (hw : Solid w) : words w = [w] := by
  rw [words, List.splitOnP_eq_singleton hw.2, List.filter_cons_of_pos (by simpa using hw.1), List.filter_nil]

/-- A text is blank, or has a first word, which ends at a blank or with the text. -/
theorem blank_or_word (t : Text) : Blank t ∨ ∃ lead w after, Blank lead ∧ Solid w ∧ t = lead ++ w ++ after ∧
    ∀ x, after.head? = some x → isBlank x = true := by
  obtain ⟨lead, hl, ht⟩ := exists_trimStart t
  cases hr : trimStart t with
  | nil =>
    rw [hr, List.append_nil] at ht
    exact Or.inl (ht ▸ hl)
  | cons x r =>
    have hx : isBlank x = false := head?_trimStart (t := t) (by rw [hr]; rfl)
    refine Or.inr ⟨lead, (x :: r).takeWhile (!isBlank ·), (x :: r).dropWhile (!isBlank ·), hl, ⟨?_, fun y hy => ?_⟩, ?_,
      fun y hy => ?_⟩
    · rw [List.takeWhile_cons_of_pos (by simp [hx])]
      exact List.cons_ne_nil _ _
    · simpa using List.all_eq_true.mp List.all_takeWhile y hy
    · rw [List.append_assoc, List.takeWhile_append_dropWhile, ← hr, ← ht]
    · have := List.head?_dropWhile_not (!isBlank ·) (x :: r)
      rw [hy] at this
      simpa using this

theorem words_word {lead w after : Text} (hl : Blank lead) (hw : Solid w)
    (ha : ∀ x, after.head? = some x → isBlank x = true) : words (lead ++ w ++ after) = w :: words after := by
  rw [List.append_assoc, words_append_of_blank hl]
  cases after with
  | nil => rw [List.append_nil, words_of_solid hw]; rfl
  | cons x after =>
    have hx : Blank [x] := fun y hy => ha y (by rw [List.mem_singleton.mp hy]; rfl)
    rw [words_append_cons (ha x rfl), words_of_solid hw, ← words_append_of_blank hx after]
    rfl

theorem words_of_blank_start {t : Text} (h : trimStart t = []) : words t = [] := by
  obtain ⟨lead, hl, ht⟩ := exists_trimStart t
  rw [h, List.append_nil] at ht
  rw [ht, words_of_blank hl]

/-- The first word is the run after the blanks at the front. -/
theorem words_of_trimStart {t : Text} (h : trimStart t ≠ []) :
    words t = (trimStart t).takeWhile (!isBlank ·) :: words ((trimStart t).dropWhile (!isBlank ·)) ∧
      ((trimStart t).dropWhile (!isBlank ·)).length < t.length := by
  obtain ⟨lead, hl, ht⟩ := exists_trimStart t
  have hcut := List.takeWhile_append_dropWhile (p := (!isBlank ·)) (l := trimStart t)
  have hsolid : Solid ((trimStart t).takeWhile (!isBlank ·)) := by
    refine ⟨fun hnil => ?_, fun x hx => by simpa using List.all_eq_true.mp List.all_takeWhile x hx⟩
    obtain ⟨x, r, hr⟩ := List.exists_cons_of_ne_nil h
    have hx : isBlank x = false := head?_trimStart (t := t) (by rw [hr]; rfl)
    rw [hr, List.takeWhile_cons_of_pos (by simpa using hx)] at hnil
    cases hnil
  have hafter : ∀ x, ((trimStart t).dropWhile (!isBlank ·)).head? = some x → isBlank x = true := fun x hx => by
    have := List.head?_dropWhile_not (!isBlank ·) (trimStart t)
    rw [hx] at this
    simpa using this
  constructor
  · rw [← words_word hl hsolid hafter, List.append_assoc, hcut, ← ht]
  · have hlen := congrArg List.length hcut
    have hpos := List.length_pos_iff.mpr hsolid.1
    have hle : (trimStart t).length ≤ t.length := (List.dropWhile_sublist _).length_le
    rw [List.length_append] at hlen
    omega

theorem words_eq_nil_iff {t : Text} : words t = [] ↔ Blank t := by
  refine ⟨fun h => ?_, words_of_blank⟩
  rcases blank_or_word t with hb | ⟨lead, w, after, hl, hw, rfl, ha⟩
  · exact hb
  · rw [words_word hl hw ha] at h
    cases h

theorem words_eq_cons_iff {t w : Text} {ws : List Text} :
    words t = w :: ws ↔ ∃ lead after, Blank lead ∧ Solid w ∧ t = lead ++ w ++ after ∧
      (∀ x, after.head? = some x → isBlank x = true) ∧ words after = ws := by
  constructor
  · intro h
    rcases blank_or_word t with hb | ⟨lead, w', after, hl, hw, rfl, ha⟩
    · rw [words_of_blank hb] at h
      cases h
    · rw [words_word hl hw ha] at h
      cases h
      exact ⟨lead, after, hl, hw, rfl, ha, rfl⟩
  · intro ⟨lead, after, hl, hw, ht, ha, hws⟩
    rw [ht, words_word hl hw ha, hws]

/-! ## (3) Cuts at a character -/

theorem cutAt?_append {x : Char} {before : Text} (h : x ∉ before) (after : Text) :
    cutAt? x (before ++ x :: after) = some (before, after) := by
  have hb : ∀ y ∈ before, (y != x) = true := fun y hy => by
    have : y ≠ x := fun e => h (e ▸ hy)
    simpa using this
  rw [cutAt?, List.dropWhile_append_of_pos hb, List.takeWhile_append_of_pos hb,
    List.dropWhile_cons_of_neg (by simp), List.takeWhile_cons_of_neg (by simp), List.append_nil]

theorem cutAt?_eq_none {x : Char} {t : Text} (h : x ∉ t) : cutAt? x t = none := by
  cases hc : cutAt? x t with
  | none => rfl
  | some cut =>
    rw [(cutAt?_eq_some hc).1] at h
    exact absurd (List.mem_append_right _ List.mem_cons_self) h

theorem isDigits_iff {t : Text} : isDigits t = true ↔ t ≠ [] ∧ ∀ x ∈ t, x.isDigit = true := by
  rw [isDigits, Bool.and_eq_true, List.all_eq_true]
  refine and_congr_left' ?_
  cases t <;> simp

end Text

end Positional
