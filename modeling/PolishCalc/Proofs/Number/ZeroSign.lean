import Mathlib.Data.List.Forall2
import PolishCalc.Proofs.Application

namespace PolishCalc

namespace Double

variable {x x' y y' : Double}

inductive Matches : Double → Double → Prop
  | refl (x : Double) : Matches x x
  | zero {x y : Double} : x.isZero = true → y.isZero = true → Matches x y

theorem Matches.trans {z : Double} (h : Matches x y) (h' : Matches y z) : Matches x z := by
  cases h with
  | refl => exact h'
  | zero hx hy =>
    cases h' with
    | refl => exact .zero hx hy
    | zero _ hz => exact .zero hx hz

theorem exists_of_isZero (h : x.isZero = true) : ∃ negative, x = zeroOf negative := by
  cases x with
  | finite negative units fits =>
    obtain rfl : units = 0 := by simpa [isZero] using h
    exact ⟨negative, rfl⟩
  | _ => cases h

theorem Matches.eq_or_zeroOf (h : Matches x y) :
    x = y ∨ ∃ s t, x = zeroOf s ∧ y = zeroOf t := by
  cases h with
  | refl => exact .inl rfl
  | zero hx hy =>
    obtain ⟨s, rfl⟩ := exists_of_isZero hx
    obtain ⟨t, rfl⟩ := exists_of_isZero hy
    exact .inr ⟨s, t, rfl, rfl⟩

inductive Agree : Except Fault Double → Except Fault Double → Prop
  | value {x y : Double} : Matches x y → Agree (.ok x) (.ok y)
  | fault (fault : Fault) : Agree (.error fault) (.error fault)

theorem Agree.refl (result : Except Fault Double) : Agree result result := by
  cases result with
  | error fault => exact .fault fault
  | ok x => exact .value (.refl x)

theorem Agree.trans {a b c : Except Fault Double} (h : Agree a b) (h' : Agree b c) :
    Agree a c := by
  cases h with
  | fault => exact h'
  | value h =>
    cases h' with
    | value h' => exact .value (h.trans h')

theorem agree_of_zero {f : Double → Double → Except Fault Double}
    (hleft : ∀ s t y, Agree (f (zeroOf s) y) (f (zeroOf t) y))
    (hright : ∀ x s t, Agree (f x (zeroOf s)) (f x (zeroOf t)))
    (hx : Matches x x') (hy : Matches y y') : Agree (f x y) (f x' y') := by
  have hfirst : Agree (f x y) (f x' y) := by
    rcases hx.eq_or_zeroOf with rfl | ⟨s, t, rfl, rfl⟩
    · exact .refl _
    · exact hleft s t y
  have hsecond : Agree (f x' y) (f x' y') := by
    rcases hy.eq_or_zeroOf with rfl | ⟨s, t, rfl, rfl⟩
    · exact .refl _
    · exact hright x' s t
  exact hfirst.trans hsecond

theorem signedUnits_zero (negative : Bool) : signedUnits negative 0 = 0 := by
  cases negative <;> rfl

theorem zeroOf_add (s t : Bool) (y : Double) : Matches ((zeroOf s).add y) ((zeroOf t).add y) := by
  cases y with
  | nan => exact .refl _
  | infinity u => exact .refl _
  | finite u b fits =>
    simp only [zeroOf, add, signedUnits_zero]
    split
    · exact .zero rfl rfl
    · exact .refl _

theorem add_zeroOf (x : Double) (s t : Bool) : Matches (x.add (zeroOf s)) (x.add (zeroOf t)) := by
  cases x with
  | nan => exact .refl _
  | infinity u => exact .refl _
  | finite u a fits =>
    simp only [zeroOf, add, signedUnits_zero]
    split
    · exact .zero rfl rfl
    · exact .refl _

theorem isZero_ofRatio_zero {den : Nat} (h : 0 < den) (negative : Bool) :
    (ofRatio negative 0 den).isZero = true := by
  rw [ofRatio_zero h]
  rfl

theorem zeroOf_mul (s t : Bool) (y : Double) : Matches ((zeroOf s).mul y) ((zeroOf t).mul y) := by
  cases y with
  | nan => exact .refl _
  | infinity u => exact .refl _
  | finite u b fits =>
    simp only [zeroOf, mul, Nat.zero_mul]
    exact .zero (isZero_ofRatio_zero unitsPerOne_pos _) (isZero_ofRatio_zero unitsPerOne_pos _)

theorem mul_zeroOf (x : Double) (s t : Bool) : Matches (x.mul (zeroOf s)) (x.mul (zeroOf t)) := by
  cases x with
  | nan => exact .refl _
  | infinity u => exact .refl _
  | finite u a fits =>
    simp only [zeroOf, mul, Nat.mul_zero]
    exact .zero (isZero_ofRatio_zero unitsPerOne_pos _) (isZero_ofRatio_zero unitsPerOne_pos _)

theorem zeroOf_div (s t : Bool) (y : Double) (h : y.isZero = false) :
    Matches ((zeroOf s).div y h) ((zeroOf t).div y h) := by
  cases y with
  | nan => exact .refl _
  | infinity u => exact .zero rfl rfl
  | finite u b fits =>
    have hpos : 0 < b := Nat.pos_of_ne_zero (by simpa [isZero] using h)
    simp only [zeroOf, div, Nat.zero_mul]
    exact .zero (isZero_ofRatio_zero hpos _) (isZero_ofRatio_zero hpos _)

theorem zeroOf_rem (s t : Bool) (y : Double) : Matches ((zeroOf s).rem y) ((zeroOf t).rem y) := by
  cases y with
  | nan => exact .refl _
  | infinity u => exact .zero rfl rfl
  | finite u b fits =>
    simp only [zeroOf, rem, Nat.zero_mod]
    split
    · exact .refl _
    · exact .zero (isZero_ofRatio_zero Nat.one_pos _) (isZero_ofRatio_zero Nat.one_pos _)

theorem zeroOf_ne_one (negative : Bool) : zeroOf negative ≠ one := by
  intro h
  have hone : one.isZero = false := isZero_ofUnits false (Nat.mul_pos Nat.one_pos unitsPerOne_pos)
  rw [← h] at hone
  cases hone

theorem zeroOf_pow (s t : Bool) (y : Double) : Matches ((zeroOf s).pow y) ((zeroOf t).pow y) := by
  by_cases hzero : y.isZero = true
  · have hpow (u : Bool) : (zeroOf u).pow y = one := if_pos (.inl hzero)
    rw [hpow s, hpow t]
    exact .refl _
  · have hne (u : Bool) : ¬ (y.isZero = true ∨ zeroOf u = one) := by
      rw [not_or]
      exact ⟨hzero, zeroOf_ne_one u⟩
    unfold pow
    rw [if_neg (hne s), if_neg (hne t)]
    cases y with
    | nan => exact .refl _
    | infinity u => exact .refl _
    | finite u b fits =>
      dsimp only [zeroOf]
      rw [if_pos rfl, if_pos rfl]
      split
      · exact .refl _
      · exact .zero rfl rfl

theorem pow_zeroOf (x : Double) (s t : Bool) : Matches (x.pow (zeroOf s)) (x.pow (zeroOf t)) := by
  have hpow (u : Bool) : x.pow (zeroOf u) = one := if_pos (.inl rfl)
  rw [hpow s, hpow t]
  exact .refl _

theorem Matches.roundAt (h : Matches x y) (digits : Nat) :
    Agree (x.roundAt digits) (y.roundAt digits) := by
  rcases h.eq_or_zeroOf with rfl | ⟨s, t, rfl, rfl⟩
  · exact .refl _
  · rw [roundAt_zeroOf, roundAt_zeroOf]
    refine .value (.zero ?_ ?_) <;> split <;> rfl

end Double

namespace Operator

open Double

variable {op : Operator} {x x' y y' : Double}

theorem agree_truncatedQuotient (s t : Bool) (y : Double) (h : y.isZero = false) :
    Agree (truncatedQuotient (zeroOf s) y h) (truncatedQuotient (zeroOf t) y h) := by
  have hquotient := zeroOf_div s t y h
  rw [truncatedQuotient, truncatedQuotient]
  generalize (zeroOf s).div y h = a at hquotient ⊢
  generalize (zeroOf t).div y h = b at hquotient ⊢
  rcases hquotient.eq_or_zeroOf with rfl | ⟨u, v, rfl, rfl⟩
  · exact .refl _
  · rw [truncate_of_isZero (x := zeroOf u) rfl, truncate_of_isZero (x := zeroOf v) rfl]
    exact .refl _

theorem agree_remainder (s t : Bool) (y : Double) :
    Agree (remainder (zeroOf s) y) (remainder (zeroOf t) y) := by
  have hrest := zeroOf_rem s t y
  rw [remainder, remainder]
  generalize (zeroOf s).rem y = a at hrest ⊢
  generalize (zeroOf t).rem y = b at hrest ⊢
  have hnan : a.isNaN = b.isNaN := by
    rcases hrest.eq_or_zeroOf with rfl | ⟨u, v, rfl, rfl⟩
    · rfl
    · rfl
  have hnumber (u : Bool) : (zeroOf u).isNaN = false := rfl
  rw [hnan, hnumber s, hnumber t]
  split
  · exact .fault _
  · exact .value hrest

theorem agree_compute (op : Operator) (hx : Matches x x') (hy : Matches y y') :
    Agree (op.compute x (.double y)) (op.compute x' (.double y')) := by
  refine agree_of_zero (f := fun x y => op.compute x (.double y)) ?_ ?_ hx hy
  · intro s t y
    cases op with
    | add => exact .value (zeroOf_add s t y)
    | subtract => exact .value (zeroOf_add s t y.neg)
    | multiply => exact .value (zeroOf_mul s t y)
    | power => exact .value (zeroOf_pow s t y)
    | random => exact .value (.zero rfl rfl)
    | divide =>
      change Agree (.ok (if h : y.isZero = false then (zeroOf s).div y h else .zero))
        (.ok (if h : y.isZero = false then (zeroOf t).div y h else .zero))
      split
      · exact .value (zeroOf_div s t y _)
      · exact .refl _
    | intDivide =>
      change Agree (if h : y.isZero = false then truncatedQuotient (zeroOf s) y h else .ok .zero)
        (if h : y.isZero = false then truncatedQuotient (zeroOf t) y h else .ok .zero)
      split
      · exact agree_truncatedQuotient s t y _
      · exact .refl _
    | modulo =>
      change Agree (if y.isZero then .ok .zero else remainder (zeroOf s) y)
        (if y.isZero then .ok .zero else remainder (zeroOf t) y)
      split
      · exact .refl _
      · exact agree_remainder s t y
  · intro x s t
    cases op with
    | add => exact .value (add_zeroOf x s t)
    | subtract => exact .value (add_zeroOf x (!s) (!t))
    | multiply => exact .value (mul_zeroOf x s t)
    | power => exact .value (pow_zeroOf x s t)
    | random => exact .refl _
    | divide => exact .refl _
    | intDivide => exact .refl _
    | modulo => exact .refl _

theorem exists_matches_of_foldRest (hop : op ≠ random) {source source' : Source}
    {operands operands' : List Double} (h : List.Forall₂ Matches operands operands')
    (hx : Matches x x') {earlier earlier' requests : List Request} {z : Double}
    (hfold : foldRest source op x (operands.map Operand.double) earlier = (.ok z, requests)) :
    ∃ z', foldRest source' op x' (operands'.map Operand.double) earlier' = (.ok z', earlier') ∧
      Matches z z' := by
  induction h generalizing x x' with
  | nil =>
    cases hfold
    exact ⟨x', rfl, hx⟩
  | @cons y y' operands operands' hy _ ih =>
    have hcompute := agree_compute op hx hy
    rw [List.map_cons, foldRest, step_eq hop] at hfold
    rw [List.map_cons, foldRest, step_eq hop]
    generalize op.compute x (.double y) = first at hcompute hfold
    generalize op.compute x' (.double y') = second at hcompute ⊢
    cases hcompute with
    | fault fault => cases hfold
    | value hz => exact ih hz hfold

theorem exists_matches_of_apply (hop : op ≠ random) {source source' : Source}
    {operands operands' : List Double} (h : List.Forall₂ Matches operands operands')
    {earlier earlier' requests : List Request} {z : Double}
    (happly : op.apply source (operands.map Operand.double) earlier = (.ok z, requests)) :
    ∃ z', op.apply source' (operands'.map Operand.double) earlier' = (.ok z', earlier') ∧
      Matches z z' := by
  cases h with
  | nil => cases happly
  | @cons x x' operands operands' hx hrest =>
    rw [List.map_cons, apply, if_neg fun hrandom => hop hrandom.1] at happly
    rw [List.map_cons, apply, if_neg fun hrandom => hop hrandom.1]
    exact exists_matches_of_foldRest hop hrest hx happly

end Operator

end PolishCalc
