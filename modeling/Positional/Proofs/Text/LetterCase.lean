/-
  Positional.Proofs.Text.LetterCase — what does not depend on letter case.

  Only the letters A to Z have another lower case. So a function of characters that takes the same
  values at `a` to `z` as at `A` to `Z` sees no letter case at all (`of_toLower_eq`), for instance
  what a character is, as long as it is no letter (`eq_of_toLower_eq`). The classes of characters by
  which texts are cut are of this kind (`Caseless`).

  A text may be put into lower case (`Text.lower`) before it is read as a literal, as a number or
  as a name.
-/
import Positional.Proofs.Text.Classes
import Positional.Proofs.Text.Cuts

namespace Positional

open Expression

/-! ## (1) Characters -/

theorem isUpper_iff {x : Char} : x.isUpper = true ↔ 65 ≤ x.toNat ∧ x.toNat ≤ 90 := by
  show decide ('A' ≤ x ∧ x ≤ 'Z') = true ↔ _
  rw [decide_eq_true_eq]
  exact Iff.rfl

theorem toLower_eq_self {x : Char} (h : x.isUpper = false) : x.toLower = x := by
  unfold Char.toLower
  split
  · rename_i hx
    have hu : x.isUpper = true := decide_eq_true hx
    rw [h] at hu
    cases hu
  · rfl

theorem exists_of_isUpper {x : Char} (h : x.isUpper = true) : ∃ n : Fin 26, x = Char.ofNat (65 + n) := by
  obtain ⟨h₁, h₂⟩ := isUpper_iff.mp h
  refine ⟨⟨x.toNat - 65, by omega⟩, ?_⟩
  show x = Char.ofNat (65 + (x.toNat - 65))
  rw [Nat.add_sub_cancel' h₁, Char.ofNat_toNat]

section Invariant

variable {α : Type} {f : Char → α} (h : ∀ n : Fin 26, f (Char.ofNat (97 + n)) = f (Char.ofNat (65 + n)))

include h

theorem apply_toLower (x : Char) : f x.toLower = f x := by
  cases hx : x.isUpper with
  | false => rw [toLower_eq_self hx]
  | true =>
    have lower : ∀ n : Fin 26, (Char.ofNat (65 + n)).toLower = Char.ofNat (97 + n) := by decide
    obtain ⟨n, rfl⟩ := exists_of_isUpper hx
    rw [lower n, h n]

theorem of_toLower_eq {x y : Char} (hxy : x.toLower = y.toLower) : f x = f y := by
  rw [← apply_toLower h x, hxy, apply_toLower h y]

end Invariant

theorem toLower_toLower (x : Char) : x.toLower.toLower = x.toLower := apply_toLower (by decide) x

theorem eq_of_toLower_eq {x y : Char} (h : x.toLower = y.toLower) (hy : y.isAlpha = false) : x = y := by
  let other (z : Char) : Option Char := if z.isAlpha then none else some z
  have hxy : other x = other y := of_toLower_eq (by decide) h
  simp only [other, hy, Bool.false_eq_true, if_false] at hxy
  split at hxy
  · cases hxy
  · exact Option.some.inj hxy

theorem isBlank_eq_of_toLower_eq {x y : Char} (h : x.toLower = y.toLower) : isBlank x = isBlank y :=
  of_toLower_eq (by decide) h

theorem isAlpha_of_isDigit {x : Char} (h : x.isDigit = true) : x.isAlpha = false := by
  have hx := isDigit_iff.mp h
  rw [← Bool.not_eq_true, isAlpha_iff]
  omega

/-! ## (2) Classes -/

/-- A class of characters without blanks, in which letter case makes no difference. -/
structure Caseless (p : Char → Bool) : Prop where
  same {x y : Char} : x.toLower = y.toLower → p x = p y
  solid {x : Char} : p x = true → isBlank x = false

theorem Caseless.lower {p : Char → Bool} (hp : Caseless p) (x : Char) : p x.toLower = p x := hp.same (toLower_toLower x)

theorem caseless_isDigit : Caseless Char.isDigit := ⟨of_toLower_eq (by decide), isBlank_of_isDigit⟩

theorem caseless_startsFactor : Caseless startsFactor := ⟨of_toLower_eq (by decide), isBlank_of_startsFactor⟩

theorem caseless_isAlphabetic : Caseless isAlphabetic :=
  ⟨of_toLower_eq (by decide), fun h => isBlank_of_startsFactor (startsFactor_of_isAlphabetic h)⟩

theorem caseless_digit : Caseless Digit.isDigit :=
  ⟨of_toLower_eq (by decide), fun h => isBlank_of_startsFactor (startsFactor_of_digit h)⟩

theorem caseless_symbol {symbol : Char} (hb : isBlank symbol = false) (ha : symbol.isAlpha = false) :
    Caseless (· == symbol) := by
  refine ⟨fun {x y} h => ?_, fun {x} hx => by rw [eq_of_beq hx, hb]⟩
  by_cases hy : y = symbol
  · subst hy
    rw [eq_of_toLower_eq h ha]
  · have hx : x ≠ symbol := by
      rintro rfl
      exact hy (eq_of_toLower_eq h.symm ha)
    rw [beq_eq_false_iff_ne.mpr hx, beq_eq_false_iff_ne.mpr hy]

/-! ## (3) Texts in lower case -/

namespace Text

def lower (t : Text) : Text := t.map Char.toLower

theorem exists_of_lower {symbol : Char} {t u : Text} (hs : symbol.isAlpha = false) (h : lower t = symbol :: u) :
    ∃ v, t = symbol :: v := by
  obtain ⟨x, v, rfl, hx, _⟩ := List.map_eq_cons_iff.mp h
  have hlower : symbol.toLower = symbol := toLower_eq_self (Bool.or_eq_false_iff.mp hs).1
  exact ⟨v, by rw [eq_of_toLower_eq (hx.trans hlower.symm) hs]⟩

theorem lower_digits {t : Text} (h : ∀ x ∈ t, x.isDigit = true) : lower t = t := by
  refine (List.map_congr_left fun x hx => ?_).trans t.map_id
  exact eq_of_toLower_eq (toLower_toLower x) (isAlpha_of_isDigit (h x hx))

section Cuts

variable {p : Char → Bool} (hp : ∀ x : Char, p x.toLower = p x)

include hp

theorem takeWhile_lower (t : Text) : (lower t).takeWhile p = lower (t.takeWhile p) := by
  rw [lower, List.takeWhile_map]
  exact congrArg (fun q => lower (t.takeWhile q)) (funext hp)

theorem dropWhile_lower (t : Text) : (lower t).dropWhile p = lower (t.dropWhile p) := by
  rw [lower, List.dropWhile_map]
  exact congrArg (fun q => lower (t.dropWhile q)) (funext hp)

theorem all_lower (t : Text) : (lower t).all p = t.all p := by
  rw [lower, List.all_map]
  exact congrArg (fun q => t.all q) (funext hp)

theorem splitOnP_lower (t : Text) : (lower t).splitOnP p = (t.splitOnP p).map lower := by
  induction t with
  | nil => rfl
  | cons x t ih =>
    show (x.toLower :: lower t).splitOnP p = _
    rw [List.splitOnP_cons_eq_if_modifyHead, List.splitOnP_cons_eq_if_modifyHead, hp, ih]
    split
    · rfl
    · cases t.splitOnP p <;> rfl

end Cuts

theorem trim_lower (t : Text) : trim (lower t) = lower (trim t) := by
  have start (t : Text) : trimStart (lower t) = lower (trimStart t) := dropWhile_lower (apply_toLower (by decide)) t
  have reverse (t : Text) : (lower t).reverse = lower t.reverse := List.map_reverse.symm
  rw [trim, start, reverse, start, reverse, trim]

theorem cutAt?_lower {symbol : Char} (hs : ∀ x : Char, (x.toLower != symbol) = (x != symbol)) (t : Text) :
    cutAt? symbol (lower t) = (cutAt? symbol t).map fun (before, after) => (lower before, lower after) := by
  rw [cutAt?, dropWhile_lower hs, takeWhile_lower hs, cutAt?]
  cases t.dropWhile (· != symbol) <;> rfl

theorem isDigits_lower (t : Text) : isDigits (lower t) = isDigits t := by
  rw [isDigits, all_lower caseless_isDigit.lower, lower, List.isEmpty_map, isDigits]

theorem digits_lower (t : Text) : (lower t).takeWhile Char.isDigit = t.takeWhile Char.isDigit := by
  rw [takeWhile_lower caseless_isDigit.lower]
  exact lower_digits fun x hx => List.all_eq_true.mp List.all_takeWhile x hx

end Text

/-! ## (4) Names and literals -/

theorem Identifier.ofText?_lower (name : Text) : Identifier.ofText? (Text.lower name) = Identifier.ofText? name := by
  have hf : Identifier.fold ∘ Char.toLower = Identifier.fold := funext (apply_toLower (by decide))
  rw [Identifier.ofText?, Text.lower, List.map_map, hf, Identifier.ofText?]

theorem hexadecimalValue_lower (digits : Text) : hexadecimalValue (Text.lower digits) = hexadecimalValue digits := by
  rw [hexadecimalValue, Text.lower, List.foldl_map, hexadecimalValue]
  simp only [apply_toLower (f := Digit.value?) (by decide)]

namespace Binary64

/-- The sign of an exponent, and what comes after it. -/
def cutExponentSign : Text → Bool × Text
  | '-' :: digits => (true, digits)
  | '+' :: digits => (false, digits)
  | digits => (false, digits)

/-- The digits after a point, and what comes after them. -/
def cutFraction : Text → Text × Text
  | '.' :: rest => (rest.takeWhile Char.isDigit, rest.dropWhile Char.isDigit)
  | rest => ([], rest)

theorem readExponent?_cons (marker : Char) (rest : Text) : readExponent? (marker :: rest) =
    if marker != 'e' && marker != 'E' then none
    else if Text.isDigits (cutExponentSign rest).2 then
      some (if (cutExponentSign rest).1 then -((cutExponentSign rest).2.decimalValue : Int)
        else (cutExponentSign rest).2.decimalValue)
    else none := rfl

theorem readDecimal?_eq (t : Text) : readDecimal? t =
    if (t.takeWhile Char.isDigit).isEmpty && (cutFraction (t.dropWhile Char.isDigit)).1.isEmpty then none
    else (readExponent? (cutFraction (t.dropWhile Char.isDigit)).2).map fun exponent =>
      ⟨Text.decimalValue (t.takeWhile Char.isDigit ++ (cutFraction (t.dropWhile Char.isDigit)).1),
        exponent - (cutFraction (t.dropWhile Char.isDigit)).1.length⟩ := rfl

theorem cutExponentSign_lower (t : Text) :
    cutExponentSign (Text.lower t) = ((cutExponentSign t).1, Text.lower (cutExponentSign t).2) := by
  fun_cases cutExponentSign t with
  | case1 | case2 => rfl
  | case3 _ hminus hplus =>
    unfold cutExponentSign
    split
    · rename_i d h
      obtain ⟨d', rfl⟩ := Text.exists_of_lower rfl h
      exact absurd rfl (hminus d')
    · rename_i d h
      obtain ⟨d', rfl⟩ := Text.exists_of_lower rfl h
      exact absurd rfl (hplus d')
    · rfl

theorem cutFraction_lower (t : Text) : cutFraction (Text.lower t) = ((cutFraction t).1, Text.lower (cutFraction t).2) := by
  fun_cases cutFraction t with
  | case1 rest =>
    exact Prod.ext (Text.digits_lower rest) (Text.dropWhile_lower caseless_isDigit.lower rest)
  | case2 _ hpoint =>
    unfold cutFraction
    split
    · rename_i d h
      obtain ⟨d', rfl⟩ := Text.exists_of_lower rfl h
      exact absurd rfl (hpoint d')
    · rfl

theorem readExponent?_lower (t : Text) : readExponent? (Text.lower t) = readExponent? t := by
  cases t with
  | nil => rfl
  | cons marker t =>
    have hm : (marker.toLower != 'e' && marker.toLower != 'E') = (marker != 'e' && marker != 'E') :=
      apply_toLower (f := fun x => x != 'e' && x != 'E') (by decide) marker
    show readExponent? (marker.toLower :: Text.lower t) = _
    rw [readExponent?_cons, readExponent?_cons, hm, cutExponentSign_lower, Text.isDigits_lower]
    by_cases hd : Text.isDigits (cutExponentSign t).2 = true
    · rw [Text.lower_digits (Text.isDigits_iff.mp hd).2]
    · rw [if_neg hd, if_neg hd]

theorem ofText?_lower (t : Text) : ofText? (Text.lower t) = ofText? t := by
  have h : readDecimal? (Text.lower t) = readDecimal? t := by
    rw [readDecimal?_eq, readDecimal?_eq, Text.digits_lower, Text.dropWhile_lower caseless_isDigit.lower, cutFraction_lower,
      readExponent?_lower]
  rw [ofText?, h, ofText?]

end Binary64

end Positional
