/-
  Positional.Proofs.Text.Respelling — texts that are spelled in two ways.

  A `Respelling` says which characters stand for each other, at most the two cases of a letter, and
  whether a run of blanks may stand for any other. `Respells` relates the texts that differ so.
  Whatever a text is cut by, a blank, a class of characters or a symbol, it cuts both spellings
  in the same way:

  - a run of a class and what comes after it are respelled (`Respells.run`), and so is what blanks
    leave (`Respells.trimStart`, `Respells.trim`);
  - a cut at a character that is not blank cuts the other spelling too (`Respells.cut`,
    `Respells.cutAt?`);
  - the words are respelled letter by letter (`Respells.words`).
-/
import Positional.Proofs.Text.Cuts
import Positional.Proofs.Text.LetterCase
import Mathlib.Data.List.Forall2

namespace Positional

/-- Which characters stand for each other in two spellings, and whether runs of blanks do. -/
structure Respelling where
  letter : Char → Char → Prop
  gaps : Prop
  symm {x y : Char} : letter x y → letter y x
  toLower_eq {x y : Char} : letter x y → x.toLower = y.toLower
  /-- The letters of `0x` may be spelled as they are. -/
  zero : letter '0' '0'
  marker : letter 'x' 'x'

namespace Respelling

inductive Respells (L : Respelling) : Text → Text → Prop
  | nil : Respells L [] []
  | cons {x y : Char} {t u : Text} : L.letter x y → Respells L t u → Respells L (x :: t) (y :: u)
  | gap {v w t u : Text} : L.gaps → v ≠ [] → Blank v → w ≠ [] → Blank w → Respells L t u →
      Respells L (v ++ t) (w ++ u)

variable {L : Respelling} {t u : Text}

/-! ## (1) Putting texts together -/

theorem isBlank_eq {x y : Char} (h : L.letter x y) : isBlank x = isBlank y := isBlank_eq_of_toLower_eq (L.toLower_eq h)

theorem Respells.symm (h : L.Respells t u) : L.Respells u t := by
  induction h with
  | nil => exact .nil
  | cons hl _ ih => exact .cons (L.symm hl) ih
  | gap hg hv hbv hw hbw _ ih => exact .gap hg hw hbw hv hbv ih

theorem Respells.append {v w : Text} (h : L.Respells t u) (h' : L.Respells v w) : L.Respells (t ++ v) (u ++ w) := by
  induction h with
  | nil => exact h'
  | cons hl _ ih => exact .cons hl ih
  | gap hg hv hbv hw hbw _ ih =>
    rw [List.append_assoc, List.append_assoc]
    exact .gap hg hv hbv hw hbw ih

theorem respells_of_forall₂ (h : List.Forall₂ L.letter t u) : L.Respells t u := by
  induction h with
  | nil => exact .nil
  | cons hl _ ih => exact .cons hl ih

theorem respells_self (h : ∀ x ∈ t, L.letter x x) : L.Respells t t := respells_of_forall₂ (List.forall₂_same.mpr h)

theorem eq_of_forall₂ (hl : ∀ x y, L.letter x y → x = y) (h : List.Forall₂ L.letter t u) : t = u := by
  induction h with
  | nil => rfl
  | cons hx _ ih => rw [hl _ _ hx, ih]

theorem Respells.reverse (h : L.Respells t u) : L.Respells t.reverse u.reverse := by
  induction h with
  | nil => exact .nil
  | cons hl _ ih =>
    rw [List.reverse_cons, List.reverse_cons]
    exact ih.append (.cons hl .nil)
  | @gap v w t u hg hv hbv hw hbw _ ih =>
    have hgap : L.Respells (v.reverse ++ []) (w.reverse ++ []) :=
      .gap hg (by simpa using hv) (Text.blank_reverse hbv) (by simpa using hw) (Text.blank_reverse hbw) .nil
    rw [List.append_nil, List.append_nil] at hgap
    rw [List.reverse_append, List.reverse_append]
    exact ih.append hgap

theorem Respells.length (h : L.Respells t u) : L.gaps ∨ t.length = u.length := by
  induction h with
  | nil => exact Or.inr rfl
  | cons _ _ ih => exact ih.imp_right (congrArg Nat.succ)
  | gap hg => exact Or.inl hg

/-! ## (2) Cuts at characters that are not blank -/

theorem Respells.uncons {x : Char} (h : L.Respells (x :: t) u) (hx : isBlank x = false) :
    ∃ y u', u = y :: u' ∧ L.letter x y ∧ L.Respells t u' := by
  generalize hs : x :: t = s at h
  cases h with
  | nil => cases hs
  | cons hl ht =>
    cases hs
    exact ⟨_, _, rfl, hl, ht⟩
  | @gap v w _ _ _ hv hbv _ _ _ =>
    obtain ⟨z, v, rfl⟩ := List.exists_cons_of_ne_nil hv
    cases hs
    exact absurd List.mem_cons_self (hbv.notMem hx)

theorem Respells.eq_nil (h : L.Respells [] u) : u = [] := by
  generalize hs : [] = s at h
  cases h with
  | nil => rfl
  | cons => cases hs
  | gap _ hv => exact absurd (List.append_eq_nil_iff.mp hs.symm).1 hv

/-- The other spelling is cut at the same character. -/
theorem Respells.cut {x : Char} {t' : Text} (h : L.Respells (t ++ x :: t') u) (hx : isBlank x = false) :
    ∃ v y v', u = v ++ y :: v' ∧ L.Respells t v ∧ L.letter x y ∧ L.Respells t' v' := by
  generalize hs : t ++ x :: t' = s at h
  induction h generalizing t with
  | nil => exact absurd (List.append_eq_nil_iff.mp hs).2 (List.cons_ne_nil x t')
  | @cons a b s u hl hr ih =>
    cases t with
    | nil =>
      cases hs
      exact ⟨[], b, u, rfl, .nil, hl, hr⟩
    | cons z t =>
      cases hs
      obtain ⟨v, y, v', rfl, hv, hy, hv'⟩ := ih rfl
      exact ⟨b :: v, y, v', rfl, .cons hl hv, hy, hv'⟩
  | @gap b w s u hg hb hbb hw hbw _ ih =>
    -- The character is behind the gap: it is not blank.
    obtain ⟨r, rfl, hr⟩ : ∃ r, t = b ++ r ∧ r ++ x :: t' = s := by
      rcases List.append_eq_append_iff.mp hs with ⟨r, hb', hr⟩ | ⟨r, ht, hr⟩
      · cases r with
        | nil => exact ⟨[], by simpa using hb'.symm, by simpa using hr⟩
        | cons z r =>
          cases hr
          exact absurd (by simp [hb']) (hbb.notMem hx)
      · exact ⟨r, ht, hr.symm⟩
    obtain ⟨v, y, v', rfl, hv, hy, hv'⟩ := ih hr
    exact ⟨w ++ v, y, v', (List.append_assoc w v _).symm, .gap hg hb hbb hw hbw hv, hy, hv'⟩

/-- A symbol that is no letter stands for itself. -/
theorem eq_of_symbol {x symbol : Char} (h : L.letter symbol x) (ha : symbol.isAlpha = false) : x = symbol :=
  eq_of_toLower_eq (L.toLower_eq h).symm ha

theorem Respells.mem {symbol : Char} (h : L.Respells t u) (hb : isBlank symbol = false) (ha : symbol.isAlpha = false)
    (hm : symbol ∈ t) : symbol ∈ u := by
  obtain ⟨before, after, rfl⟩ := List.append_of_mem hm
  obtain ⟨v, y, v', rfl, _, hy, _⟩ := h.cut hb
  rw [eq_of_symbol hy ha]
  exact List.mem_append_right _ List.mem_cons_self

theorem Respells.mem_iff {symbol : Char} (h : L.Respells t u) (hb : isBlank symbol = false)
    (ha : symbol.isAlpha = false) : symbol ∈ t ↔ symbol ∈ u :=
  ⟨h.mem hb ha, h.symm.mem hb ha⟩

/-- What is cut out of one spelling is cut out of the other. -/
theorem rel_of_some {α : Type} {R : α → α → Prop} {f : Text → Option α}
    (hf : ∀ {t u a}, L.Respells t u → f t = some a → ∃ b, f u = some b ∧ R a b) (h : L.Respells t u) :
    Option.Rel R (f t) (f u) := by
  cases ht : f t with
  | some a =>
    obtain ⟨b, hb, hr⟩ := hf h ht
    rw [hb]
    exact .some hr
  | none =>
    cases hu : f u with
    | none => exact .none
    | some b =>
      obtain ⟨a, ha, _⟩ := hf h.symm hu
      rw [ht] at ha
      cases ha

theorem Respells.cutAt? (h : L.Respells t u) (symbol : Char) (hb : isBlank symbol = false)
    (ha : symbol.isAlpha = false) :
    Option.Rel (fun p q => L.Respells p.1 q.1 ∧ L.Respells p.2 q.2) (t.cutAt? symbol) (u.cutAt? symbol) := by
  refine rel_of_some (fun {t u parts} h ht => ?_) h
  obtain ⟨rfl, hn⟩ := Text.cutAt?_eq_some ht
  obtain ⟨v, y, v', rfl, hv, hy, hv'⟩ := h.cut hb
  obtain rfl := eq_of_symbol hy ha
  have hn' : y ∉ v := fun hm => hn (hv.symm.mem hb ha hm)
  exact ⟨(v, v'), Text.cutAt?_append hn' v', hv, hv'⟩

/-! ## (3) Runs -/

/-- A run of a class ends at the same character. -/
theorem Respells.run {p : Char → Bool} (hp : Caseless p) (h : L.Respells t u) :
    List.Forall₂ L.letter (t.takeWhile p) (u.takeWhile p) ∧ L.Respells (t.dropWhile p) (u.dropWhile p) := by
  have blank {v : Text} (hv : v ≠ []) (hb : Blank v) (t : Text) :
      (v ++ t).takeWhile p = [] ∧ (v ++ t).dropWhile p = v ++ t := by
    obtain ⟨z, v, rfl⟩ := List.exists_cons_of_ne_nil hv
    have hz : ¬ p z = true := fun hz => hb.notMem (hp.solid hz) List.mem_cons_self
    exact ⟨List.takeWhile_cons_of_neg hz, List.dropWhile_cons_of_neg hz⟩
  induction h with
  | nil => exact ⟨.nil, .nil⟩
  | @cons x y t u hl hr ih =>
    have hxy := hp.same (L.toLower_eq hl)
    by_cases hx : p x = true
    · have hy : p y = true := by rwa [← hxy]
      rw [List.takeWhile_cons_of_pos hx, List.takeWhile_cons_of_pos hy, List.dropWhile_cons_of_pos hx,
        List.dropWhile_cons_of_pos hy]
      exact ⟨.cons hl ih.1, ih.2⟩
    · have hy : ¬ p y = true := by rwa [← hxy]
      rw [List.takeWhile_cons_of_neg hx, List.takeWhile_cons_of_neg hy, List.dropWhile_cons_of_neg hx,
        List.dropWhile_cons_of_neg hy]
      exact ⟨.nil, .cons hl hr⟩
  | @gap v w t u hg hv hbv hw hbw hr _ =>
    obtain ⟨hvt, hvd⟩ := blank hv hbv t
    obtain ⟨hwt, hwd⟩ := blank hw hbw u
    rw [hvt, hvd, hwt, hwd]
    exact ⟨.nil, .gap hg hv hbv hw hbw hr⟩

/-- What comes next is in a class or not, in both spellings. -/
theorem Respells.any_head? {p : Char → Bool} (hp : Caseless p) (h : L.Respells t u) : t.head?.any p = u.head?.any p := by
  have taken (t : Text) : t.head?.any p = !(t.takeWhile p).isEmpty := by
    cases t with
    | nil => rfl
    | cons x t => by_cases hx : p x = true <;> simp [hx]
  have hr := (h.run hp).1
  rw [taken, taken]
  cases hr' : t.takeWhile p <;> cases hu' : u.takeWhile p <;> simp_all

theorem Respells.trimStart (h : L.Respells t u) : L.Respells t.trimStart u.trimStart := by
  induction h with
  | nil => exact .nil
  | @cons x y t u hl hr ih =>
    have hxy := isBlank_eq hl
    simp only [Text.trimStart]
    by_cases hx : isBlank x = true
    · rw [List.dropWhile_cons_of_pos hx, List.dropWhile_cons_of_pos (by rwa [← hxy])]
      exact ih
    · rw [List.dropWhile_cons_of_neg hx, List.dropWhile_cons_of_neg (by rwa [← hxy])]
      exact .cons hl hr
  | gap _ _ hbv _ hbw _ ih =>
    simp only [Text.trimStart]
    rw [List.dropWhile_append_of_pos hbv, List.dropWhile_append_of_pos hbw]
    exact ih

theorem Respells.trim (h : L.Respells t u) : L.Respells t.trim u.trim := h.trimStart.reverse.trimStart.reverse

/-! ## (4) Words -/

/-- The characters that are not blank are a class. -/
theorem caseless_solid : Caseless (!isBlank ·) :=
  ⟨fun h => congrArg not (isBlank_eq_of_toLower_eq h), fun h => by simpa using h⟩

theorem Respells.words (h : L.Respells t u) : List.Forall₂ (List.Forall₂ L.letter) t.words u.words := by
  induction hn : t.length using Nat.strongRecOn generalizing t u with
  | ind n ih =>
    have hstart := h.trimStart
    by_cases ht : t.trimStart = []
    · have hu : u.trimStart = [] := by
        rw [ht] at hstart
        exact hstart.eq_nil
      rw [Text.words_of_blank_start ht, Text.words_of_blank_start hu]
      exact .nil
    · have hu : u.trimStart ≠ [] := by
        intro hu
        rw [hu] at hstart
        exact ht hstart.symm.eq_nil
      obtain ⟨htw, hlt⟩ := Text.words_of_trimStart ht
      rw [htw, (Text.words_of_trimStart hu).1]
      obtain ⟨hword, hafter⟩ := hstart.run caseless_solid
      exact .cons hword (ih _ (by omega) hafter rfl)

end Respelling

end Positional
