/-
  Positional.Proofs.Expression.Adjacent — factors that stand right after one another.

  A factor multiplies while another factor starts right behind it, so it looks as if products were taken from the left.
  But what it multiplies with is a whole factor, and a factor ends only where no other one starts
  (`startsFactor_factor`). So each of them goes round once at most (`step_product`), and the product is taken from the
  right, `f₁ * (f₂ * (… * fₙ))`, over any number of them (`factor_eq_adjacent`).

  `adjacent` has these factors. Each is read with one part less that may be opened than the one before it. In a run their
  values wait on one another, each in its own open factor (`reaches_last`), and are multiplied from
  the last on, where each product is checked for its range (`answers_waiting`).
-/
import Positional.Proofs.Expression.Places

namespace Positional

open Cursor

namespace Expression

/-! ## (1) Where a factor ends -/

section Repetition

variable {extend? : Expression → Cursor → Option (Expression × Cursor)}

/-- With enough rounds a repetition ends because nothing is left to extend. -/
theorem extendWhile_ends (hs : Shrinks extend?) {n : Nat} {e : Expression} {c : Cursor} (hn : c.rest.length ≤ n) :
    extend? (extendWhile extend? n e c).1 (extendWhile extend? n e c).2 = none := by
  induction n generalizing e c with
  | zero =>
    cases he : extend? e c with
    | none => exact he
    | some r => have := hs _ _ _ _ he; omega
  | succ n ih =>
    cases he : extend? e c with
    | none => rw [extendWhile_none he]; exact he
    | some r =>
      have := hs _ _ _ _ he
      simp only [extendWhile, he]
      exact ih (by omega)

end Repetition

section Readers

variable (factorial : Bool) {size : Nat}

theorem startsFactor_of_adjoin? {f : Reader} {e : Expression} {c : Cursor} (h : adjoin? f e c = none) :
    c.next?.any startsFactor = false := by
  rw [← Bool.not_eq_true]
  intro hstarts
  simp only [adjoin?, hstarts, if_true] at h
  cases h

theorem startsFactor_factor (n : Nat) (c : Cursor) (hc : c.rest.length ≤ size) :
    (factor factorial size n c).2.next?.any startsFactor = false := by
  cases n with
  | zero =>
    simp only [factor, breakOff, Cursor.next?, rest_toEnd]
    rfl
  | succ n =>
    have hm := moves_factor factorial size n
    refine startsFactor_of_adjoin? (extendWhile_ends (shrinks_adjoin? hm) ?_)
    exact Nat.le_trans ((moves_unary factorial size n c).1.trans (ahead_postfixed factorial _ _)).length_le hc

/-! ## (2) The factors of a product -/

/-- A factor without those that stand right after it. -/
def element (size n : Nat) : Reader := fun c =>
  let (operand, c) := unary factorial size n c
  postfixed factorial operand c

/-- Factors that stand right after one another, and the place behind them. -/
structure Adjacent where
  before : List Expression
  last : Expression
  behind : Cursor
  deriving DecidableEq

namespace Adjacent

def product (a : Adjacent) : Expression := a.before.foldr (.binary .multiply) a.last

end Adjacent

/-- The factors from a place on, each with one part less that may be opened than the one before it. -/
def adjacent (size : Nat) : Nat → Cursor → Adjacent
  | 0, c => ⟨[], .fault (.nestedTooDeeply c.position), c.toEnd⟩
  | n + 1, c =>
    let (e, c) := element factorial size n c
    if c.next?.any startsFactor then
      let a := adjacent size n c
      { a with before := e :: a.before }
    else ⟨[], e, c⟩

theorem ahead_element (n : Nat) (c : Cursor) : Ahead c (element factorial size n c).2 :=
  (moves_unary factorial size n c).1.trans (ahead_postfixed factorial _ _)

theorem length_element_le (n : Nat) {c : Cursor} (hc : c.rest.length ≤ size) :
    (element factorial size n c).2.rest.length ≤ size :=
  Nat.le_trans (ahead_element factorial n c).length_le hc

theorem factor_succ (n : Nat) (c : Cursor) : factor factorial size (n + 1) c =
    products size (factor factorial size n) (element factorial size n c).1 (element factorial size n c).2 := rfl

/-- The product with the next factor is the last one, since no other factor starts behind it. -/
theorem factor_eq_adjacent (n : Nat) (c : Cursor) (hc : c.rest.length ≤ size) : factor factorial size n c =
    ((adjacent factorial size n c).product, (adjacent factorial size n c).behind) := by
  induction n generalizing c with
  | zero => rfl
  | succ n ih =>
    have hlen := length_element_le factorial n hc
    have hm := moves_factor factorial size n
    rw [factor_succ, products]
    simp only [adjacent]
    generalize element factorial size n c = r at hlen ⊢
    obtain ⟨e, d⟩ := r
    dsimp only at hlen ⊢
    cases hstarts : d.next?.any startsFactor with
    | false =>
      have hnone : adjoin? (factor factorial size n) e d = none := by
        simp only [adjoin?, hstarts, Bool.false_eq_true, if_false]
      rw [extendWhile_none hnone]
      simp only [Bool.false_eq_true, if_false]
      rfl
    | true =>
      have hsome : adjoin? (factor factorial size n) e d =
          some (.binary .multiply e (factor factorial size n d).1, (factor factorial size n d).2) := by
        simp only [adjoin?, hstarts, if_true]
      have hends : adjoin? (factor factorial size n) (.binary .multiply e (factor factorial size n d).1)
          (factor factorial size n d).2 = none := by
        simp only [adjoin?, startsFactor_factor factorial n d hlen, Bool.false_eq_true, if_false]
      rw [extendWhile_some (shrinks_adjoin? hm) hlen hsome, extendWhile_none hends, ih d hlen]
      simp only [if_true]
      rfl

end Readers

/-! ## (3) Their value -/

/-- The product from the right, each one checked. -/
def multiplied (xs : List Binary64) (x : Binary64) : Except DomainError Binary64 :=
  xs.foldrM (fun y z => checked (y.mul z)) x

theorem multiplied_nil (x : Binary64) : multiplied [] x = .ok x := rfl

theorem multiplied_cons (y : Binary64) (ys : List Binary64) (x : Binary64) : multiplied (y :: ys) x = (do
    let z ← multiplied ys x
    checked (y.mul z)) := List.foldrM_cons

/-- Values are computed from left to right, and then multiplied from right to left. -/
theorem value_product (s : Setting) (a : Adjacent) : a.product.value s = (do
    let xs ← a.before.mapM (·.value s)
    let x ← a.last.value s
    (multiplied xs x).mapError .domain) := by
  obtain ⟨before, last, behind⟩ := a
  induction before with
  | nil =>
    simp only [Adjacent.product, List.foldr_nil, List.mapM_nil]
    cases h : last.value s with
    | ok x => simp [bind, Except.bind, pure, Except.pure, multiplied_nil, Except.mapError]
    | error e => rfl
  | cons e before ih =>
    have hcons : Adjacent.product ⟨e :: before, last, behind⟩ = .binary .multiply e (Adjacent.product ⟨before, last, behind⟩) := rfl
    rw [hcons, value, ih]
    dsimp only
    rw [List.mapM_cons]
    cases e.value s with
    | error e' => rfl
    | ok y =>
      cases before.mapM (·.value s) with
      | error e' => rfl
      | ok ys =>
        cases last.value s with
        | error e' => rfl
        | ok x =>
          simp only [bind, Except.bind, pure, Except.pure, multiplied_cons]
          cases multiplied ys x <;> rfl

end Expression

namespace CallStack

open Expression

variable {s : Setting} {factorial : Bool} {size n depth : Nat} {c : Cursor} {frames : List Frame}

/-! ## (4) Runs -/

/-- The values of factors that wait for the next one, the last on top. -/
def waiting (xs : List Binary64) : List Frame := (xs.map Frame.product).reverse

/-- The first of them waits below the others, in the factor around theirs. -/
theorem waiting_cons (control : Control) (y : Binary64) (ys : List Binary64) :
    (⟨control, c, depth + (y :: ys).length + 1, waiting (y :: ys) ++ frames⟩ : State) =
      ⟨control, c, depth + 1 + ys.length + 1, waiting ys ++ .product y :: frames⟩ := by
  simp only [waiting, List.map_cons, List.reverse_cons, List.append_assoc, List.cons_append, List.nil_append,
    List.length_cons, Nat.add_right_comm, Nat.add_assoc]

theorem step_products_starts {x : Binary64} (h : c.next?.any startsFactor = true) :
    step s factorial ⟨.products x, c, depth, frames⟩ = some ⟨.call .factor, c, depth, .product x :: frames⟩ := by
  simp only [step, multiplyOn, h, if_true]
  rfl

theorem step_products_ends {x : Binary64} (h : c.next?.any startsFactor = false) :
    step s factorial ⟨.products x, c, depth, frames⟩ = some ⟨.answer x, c, depth - 1, frames⟩ := by
  simp only [step, multiplyOn, h, Bool.false_eq_true, if_false]
  rfl

theorem step_product (s : Setting) (factorial : Bool) (c : Cursor) (depth : Nat) (frames : List Frame)
    (left y : Binary64) :
    step s factorial ⟨.answer y, c, depth, .product left :: frames⟩ = some (match checked (left.mul y) with
      | .ok z => ⟨.products z, c, depth, frames⟩
      | .error d => ⟨.failed (.domain d), c, depth, frames⟩) := by
  simp only [step, resume, State.settle, Operator.apply]
  cases checked (left.mul y) <;> rfl

/-- A factor is opened and its unary read, with the mark behind it. -/
theorem reaches_element (hd : depth + (n + 1) = depthLimit) (hc : c.rest.length ≤ size) {x : Binary64}
    (hx : (element factorial size n c).1.value s = .ok x) : Reaches s factorial ⟨.call .factor, c, depth, frames⟩
      ⟨.products x, (element factorial size n c).2, depth + 1, frames⟩ := by
  have hunary : Runs s factorial size (depth + 1) .unary (unary factorial size n) := (runs_unary_factor (by omega)).1
  simp only [element] at hx ⊢
  cases hu : (unary factorial size n c).1.value s with
  | error e => rw [(starts_postfixed factorial _ _).value_error hu] at hx; cases hx
  | ok u =>
    refine Reaches.head (step_factor (by omega)) (((hunary c (.operand :: frames) hc).1 u hu).trans (.head ?_ .refl))
    simp only [postfixed] at hx ⊢
    simp only [step, resume]
    cases hmark : if factorial then (unary factorial size n c).2.eat? '!' else none with
    | none =>
      rw [hmark] at hx
      obtain rfl : u = x := Except.ok.inj (hu.symm.trans hx)
      rfl
    | some d =>
      rw [hmark] at hx
      have hvalue : (Expression.factorial (unary factorial size n c).1).value s =
          (Positional.factorial u).mapError .domain := by
        rw [value, hu]
        rfl
      have hfactorial := mapError_eq_ok.mp (hvalue.symm.trans hx)
      simp only [hfactorial]
      rfl

/-- All factors but the last have values that wait, and one part more is open for each of them. -/
theorem reaches_last (hd : depth + n = depthLimit) (hc : c.rest.length ≤ size) {xs : List Binary64} {x : Binary64}
    (hxs : (adjacent factorial size n c).before.mapM (·.value s) = .ok xs)
    (hx : (adjacent factorial size n c).last.value s = .ok x) : Reaches s factorial ⟨.call .factor, c, depth, frames⟩
      ⟨.products x, (adjacent factorial size n c).behind, depth + xs.length + 1, waiting xs ++ frames⟩ := by
  induction n generalizing depth c xs frames with
  | zero => cases hx
  | succ n ih =>
    have hlen := length_element_le factorial n hc
    simp only [adjacent] at hxs hx ⊢
    cases hstarts : (element factorial size n c).2.next?.any startsFactor with
    | false =>
      simp only [hstarts, Bool.false_eq_true, if_false] at hxs hx ⊢
      cases hxs
      exact reaches_element hd hc hx
    | true =>
      simp only [hstarts, if_true] at hxs hx ⊢
      rw [List.mapM_cons] at hxs
      obtain ⟨y, hy, hxs⟩ := bind_eq_ok.mp hxs
      obtain ⟨ys, hys, hxs⟩ := bind_eq_ok.mp hxs
      cases hxs
      rw [waiting_cons]
      refine (reaches_element hd hc hy).trans (.head (step_products_starts hstarts) ?_)
      exact ih (by omega) hlen hys hx

/-- They are multiplied from the last on, and each product closes a factor. -/
theorem answers_waiting (hends : c.next?.any startsFactor = false) (xs : List Binary64) (x : Binary64) :
    (∀ v, multiplied xs x = .ok v → Reaches s factorial
      ⟨.products x, c, depth + xs.length + 1, waiting xs ++ frames⟩ ⟨.answer v, c, depth, frames⟩) ∧
    ∀ d, multiplied xs x = .error d → ∃ m, Reaches s factorial
      ⟨.products x, c, depth + xs.length + 1, waiting xs ++ frames⟩ m ∧ m.control = .failed (.domain d) := by
  induction xs generalizing depth frames with
  | nil =>
    refine ⟨fun v hv => ?_, fun d hd => ?_⟩
    · cases hv
      exact .head (step_products_ends hends) .refl
    · cases hd
  | cons y ys ih =>
    obtain ⟨hvalue, herror⟩ := @ih (depth + 1) (.product y :: frames)
    rw [waiting_cons, multiplied_cons]
    cases hz : multiplied ys x with
    | error d' =>
      refine ⟨fun v hv => (nomatch hv), fun d hd => ?_⟩
      cases hd
      exact herror d' hz
    | ok z =>
      have hstep := step_product s factorial c (depth + 1) frames y z
      refine ⟨fun v hv => (hvalue z hz).trans ?_, fun d hd => ?_⟩
      · have hv : checked (y.mul z) = .ok v := hv
        rw [hv] at hstep
        exact .head hstep (.head (step_products_ends hends) .refl)
      · have hd : checked (y.mul z) = .error d := hd
        rw [hd] at hstep
        exact ⟨_, (hvalue z hz).trans (.head hstep .refl), rfl⟩

/-- Adjacent factors are multiplied from the right. Where a factor has been read no other one starts, so a factor that
has been multiplied once with what follows it is read to its end. Any number of adjacent factors is read as the product from
the right, which is evaluated so, with the range checked at each product. In a run their values wait on one
another, with one part more open for each, until the last is read. -/
theorem adjacent_factors_multiply_from_the_right (s : Setting) (language : Language) (t : Text) :
    (∀ m m' x, Reaches s language.factorial (start t) m → m.control = .call .factor →
      Reaches s language.factorial m m' → m'.control = .answer x → m'.frames = m.frames →
      m'.cursor.next?.any startsFactor = false) ∧
    (∀ m left y frames, Reaches s language.factorial (start t) m → m.control = .answer y →
      m.frames = .product left :: frames →
      (∀ z, checked (left.mul y) = .ok z → ∃ m', step s language.factorial m = some m' ∧ m'.control = .products z ∧
        step s language.factorial m' = some ⟨.answer z, m.cursor, m.depth - 1, frames⟩) ∧
      ∀ d, checked (left.mul y) = .error d → ∃ m', step s language.factorial m = some m' ∧
        m'.control = .failed (.domain d)) ∧
    (∀ size n c, c.rest.length ≤ size →
      let a := adjacent language.factorial size n c
      factor language.factorial size n c = (a.product, a.behind) ∧ a.product.value s = (do
        let xs ← a.before.mapM (·.value s)
        let x ← a.last.value s
        (multiplied xs x).mapError .domain)) ∧
    ∀ m, Reaches s language.factorial (start t) m → m.control = .call .factor →
      let a := adjacent language.factorial t.length (depthLimit - m.depth) m.cursor
      ∀ xs x, a.before.mapM (·.value s) = .ok xs → a.last.value s = .ok x →
        Reaches s language.factorial m
          ⟨.products x, a.behind, m.depth + xs.length + 1, (xs.map Frame.product).reverse ++ m.frames⟩ ∧
        (∀ v, multiplied xs x = .ok v → Reaches s language.factorial m ⟨.answer v, a.behind, m.depth, m.frames⟩) ∧
        ∀ d, multiplied xs x = .error d → ∃ m', Reaches s language.factorial m m' ∧ m'.control = .failed (.domain d) := by
  refine ⟨fun m m' x hm hc h hc' hf => ?_, fun m left y frames hm hc hf => ?_,
    fun size n c hc => ⟨factor_eq_adjacent _ n c hc, value_product s _⟩, fun m hm hc => ?_⟩
  · have hcall := (orderly_of_reaches (orderly_start t) hm).control
    have hanswer := (orderly_of_reaches (orderly_start t) (hm.trans h)).control
    simp only [hc] at hcall
    simp only [hc', hf, hcall.1] at hanswer
    exact hanswer
  · have hanswer := (orderly_of_reaches (orderly_start t) hm).control
    obtain ⟨control, c, depth, _⟩ := m
    obtain rfl : control = .answer y := hc
    obtain rfl : _ = Frame.product left :: frames := hf
    have hstep := step_product s language.factorial c depth frames left y
    refine ⟨fun z hz => ?_, fun d hd => ?_⟩
    · rw [hz] at hstep
      exact ⟨_, hstep, rfl, step_products_ends hanswer⟩
    · rw [hd] at hstep
      exact ⟨_, hstep, rfl⟩
  · intro a xs x hxs hx
    have hlimit := (inv_of_reaches (inv_start t) hm).limit
    have hahead := (orderly_of_reaches (orderly_start t) hm).cursor
    obtain ⟨control, c, depth, frames⟩ := m
    obtain rfl : control = .call .factor := hc
    have hlen : c.rest.length ≤ t.length := hahead.length_le
    have hdepth : depth + (depthLimit - depth) = depthLimit := Nat.add_sub_of_le hlimit
    have hlast : Reaches s language.factorial ⟨.call .factor, c, depth, frames⟩
        ⟨.products x, a.behind, depth + xs.length + 1, waiting xs ++ frames⟩ := reaches_last hdepth hlen hxs hx
    have hends : a.behind.next?.any startsFactor = false := by
      have hfactor := startsFactor_factor language.factorial (depthLimit - depth) c hlen
      rwa [factor_eq_adjacent _ _ c hlen] at hfactor
    refine ⟨hlast, fun v hv => hlast.trans ((answers_waiting hends xs x).1 v hv), fun d hd => ?_⟩
    obtain ⟨m', hreach, hm'⟩ := (answers_waiting hends xs x).2 d hd
    exact ⟨m', hlast.trans hreach, hm'⟩

/-- From the left the first product would be out of range. -/
theorem adjacent_factors_multiply_from_the_right_in_range :
    let s : Setting := ⟨⟨fun _ x => x, fun x _ => x⟩, fun _ => ⟨0, twoPow_pos 53⟩⟩
    let t := "1e200(1e200)1e-200".toList
    let m : State := ⟨.call .factor, Cursor.start t, 0, [.first .term, .first .sum]⟩
    let large := Binary64.ofDecimal ⟨1, 200⟩
    let small := Binary64.ofDecimal ⟨1, -200⟩
    let v := large.mul (large.mul small)
    Reaches s true (start t) m ∧ checked (large.mul large) = .error .overflow ∧ multiplied [large, large] small = .ok v ∧
      grammarValue s .full t = .ok v ∧
      Reaches s true m ⟨.products small, ⟨[], 18⟩, 3, [.product large, .product large, .first .term, .first .sum]⟩ ∧
      Reaches s true m ⟨.answer v, ⟨[], 18⟩, 0, [.first .term, .first .sum]⟩ := by
  intro s t m large small v
  have hm : Reaches s true (start t) m := .head rfl (.head rfl .refl)
  have hv : multiplied [large, large] small = .ok v := by decide +kernel
  obtain ⟨-, -, -, hruns⟩ := adjacent_factors_multiply_from_the_right s .full t
  have hrun := hruns m hm rfl
  have hbefore : (adjacent Language.full.factorial t.length (depthLimit - m.depth) m.cursor).before.mapM (·.value s) =
      .ok [large, large] := by decide +kernel
  have hlast : (adjacent Language.full.factorial t.length (depthLimit - m.depth) m.cursor).last.value s = .ok small := by
    decide +kernel
  have hbehind : (adjacent Language.full.factorial t.length (depthLimit - m.depth) m.cursor).behind = ⟨[], 18⟩ := by
    decide +kernel
  generalize adjacent Language.full.factorial t.length (depthLimit - m.depth) m.cursor = a at hrun hbefore hlast hbehind
  obtain ⟨hwaiting, hanswer, -⟩ := hrun _ _ hbefore hlast
  rw [hbehind] at hwaiting hanswer
  exact ⟨hm, by decide +kernel, hv, by decide +kernel, hwaiting, hanswer v hv⟩

end CallStack

end Positional
