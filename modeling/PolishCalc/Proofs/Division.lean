import Mathlib.Data.Nat.Prime.Basic
import PolishCalc.Proofs.Application
import PolishCalc.Proofs.Number.Whole

namespace PolishCalc

theorem pow_lt_unitsPerOne : 2 ^ 53 < unitsPerOne := by
  rw [unitsPerOne_eq]
  exact Nat.pow_lt_pow_right (by decide) (by decide)

theorem dvd_pow_of_mul_spacing {n q : Nat} (hn : n ≤ 2 ^ 53)
    (h : n * spacing q = 2 * unitsPerOne) : n ∣ 2 ^ 53 := by
  have hpow : n * spacing q = 2 ^ (unitExponent + 1) := by
    rw [h, unitsPerOne_eq, Nat.pow_succ']
  obtain ⟨i, -, rfl⟩ := (Nat.dvd_prime_pow Nat.prime_two).1 (Dvd.intro _ hpow)
  exact Nat.pow_dvd_pow 2 ((Nat.pow_le_pow_iff_right (by decide)).1 hn)

variable {m n : Nat}

theorem nearestUnits_lt_of_not_dvd (hm : m ≤ 2 ^ 53) (hn : n ≤ 2 ^ 53) (hpos : 0 < n)
    (hrest : ¬ n ∣ m) : nearestUnits (m * unitsPerOne) n < (m / n + 1) * unitsPerOne := by
  by_contra hnot
  obtain ⟨-, hhigh⟩ := nearestUnits_bounds hpos (m * unitsPerOne)
  have hreach := Nat.mul_le_mul_right n (Nat.not_lt.1 hnot)
  have hnext : (m + 1) * unitsPerOne ≤ (m / n + 1) * unitsPerOne * n := by
    rw [Nat.mul_right_comm]
    exact Nat.mul_le_mul_right _ (Nat.lt_mul_of_div_lt (Nat.lt_succ_self _) hpos)
  have hgap : 2 * unitsPerOne ≤ n * spacing (m * unitsPerOne / n) := by
    rw [Nat.add_mul] at hnext
    omega
  have hone := pow_lt_unitsPerOne
  rcases spacing_eq_one_or (m * unitsPerOne / n) with hspacing | hspacing
  · rw [hspacing] at hgap
    omega
  · have hbound : 2 ^ 52 * (n * spacing (m * unitsPerOne / n)) ≤ m * unitsPerOne := by
      rw [Nat.mul_left_comm, Nat.mul_comm n]
      exact (Nat.le_div_iff_mul_le hpos).1 hspacing
    -- Only the greatest dividend leaves room for this, and then the divisor is a power of two.
    have hdividend : m = 2 ^ 53 := by
      refine Nat.le_antisymm hm (Nat.le_of_mul_le_mul_right ?_ unitsPerOne_pos)
      omega
    subst hdividend
    have hequal : n * spacing (2 ^ 53 * unitsPerOne / n) = 2 * unitsPerOne := by omega
    exact hrest (dvd_pow_of_mul_spacing hn hequal)

theorem nearestUnits_div (hm : m ≤ 2 ^ 53) (hn : n ≤ 2 ^ 53) (hpos : 0 < n) :
    nearestUnits (m * unitsPerOne) n / unitsPerOne = m / n := by
  have hfits : Fits (m / n * unitsPerOne) := Double.fits_whole ((Nat.div_le_self m n).trans hm)
  by_cases hdvd : n ∣ m
  · have hproduct : m * unitsPerOne = m / n * unitsPerOne * n := by
      rw [Nat.mul_right_comm, Nat.div_mul_cancel hdvd]
    rw [hproduct, nearestUnits_of_fits hfits hpos, Nat.mul_div_cancel _ unitsPerOne_pos]
  · apply Nat.div_eq_of_lt_le
    · refine le_nearestUnits_of_fits hfits hpos ?_
      rw [Nat.mul_right_comm]
      exact Nat.mul_le_mul_right _ (Nat.div_mul_le_self m n)
    · exact nearestUnits_lt_of_not_dvd hm hn hpos hdvd

theorem tdiv_signedUnits (s t : Bool) (m n : Nat) :
    (Double.signedUnits s m).tdiv (Double.signedUnits t n) =
      Double.signedUnits (s ^^ t) (m / n) := by
  cases s <;> cases t <;> simp [Double.signedUnits, Int.neg_tdiv, Int.tdiv_neg]

theorem tmod_signedUnits (s t : Bool) (m n : Nat) :
    (Double.signedUnits s m).tmod (Double.signedUnits t n) = Double.signedUnits s (m % n) := by
  cases s <;> cases t <;> simp [Double.signedUnits, Int.neg_tmod, Int.tmod_neg, ← Int.ofNat_tmod]

namespace Double

def IsInteger (x : Double) (n : Int) : Prop :=
  x.isWhole = true ∧ x.truncate = .ok n

instance (x : Double) (n : Int) : Decidable (x.IsInteger n) :=
  inferInstanceAs (Decidable (_ ∧ _))

variable {x y : Double} {a b : Int}

theorem isInteger_finite_iff {negative : Bool} {units : Nat} {fits : Fits units} :
    (finite negative units fits).IsInteger a ↔
      ∃ m, units = m * unitsPerOne ∧ a = signedUnits negative m := by
  constructor
  · rintro ⟨hwhole, htruncate⟩
    exact ⟨units / unitsPerOne,
      (Nat.div_mul_cancel (Nat.dvd_of_mod_eq_zero (beq_iff_eq.1 hwhole))).symm,
      (Except.ok.inj htruncate).symm⟩
  · rintro ⟨m, rfl, rfl⟩
    refine ⟨beq_iff_eq.2 (Nat.mul_mod_left ..), ?_⟩
    rw [truncate, Nat.mul_div_cancel m unitsPerOne_pos]

theorem IsInteger.exists_eq (h : x.IsInteger a) :
    ∃ negative units fits m, x = .finite negative units fits ∧ units = m * unitsPerOne ∧
      a = signedUnits negative m := by
  cases x with
  | nan => cases h.2
  | infinity negative => cases h.2
  | finite negative units fits =>
    obtain ⟨m, hunits, ha⟩ := isInteger_finite_iff.1 h
    exact ⟨negative, units, fits, m, rfl, hunits, ha⟩

theorem IsInteger.isZero_iff (h : x.IsInteger a) : x.isZero = true ↔ a = 0 := by
  obtain ⟨negative, units, fits, m, rfl, hunits, rfl⟩ := h.exists_eq
  rw [isZero, beq_iff_eq, hunits, ← Int.natAbs_eq_zero, natAbs_signedUnits, Nat.mul_eq_zero,
    or_iff_left unitsPerOne_pos.ne']

theorem IsInteger.truncate_div (hx : x.IsInteger a) (hy : y.IsInteger b)
    (ha : a.natAbs ≤ 2 ^ 53) (hb : b.natAbs ≤ 2 ^ 53) (hzero : y.isZero = false) :
    (x.div y hzero).isFinite = true ∧ (x.div y hzero).truncate = .ok (a.tdiv b) := by
  obtain ⟨s, k, hk, m, rfl, hm, rfl⟩ := hx.exists_eq
  obtain ⟨t, l, hl, n, rfl, hn, rfl⟩ := hy.exists_eq
  rw [natAbs_signedUnits] at ha hb
  have hpos : 0 < n := by
    rw [isZero, beq_eq_false_iff_ne, hn] at hzero
    exact Nat.pos_of_ne_zero (left_ne_zero_of_mul hzero)
  have hratio : nearestUnits (k * unitsPerOne) l = nearestUnits (m * unitsPerOne) n := by
    rw [hm, hn]
    exact nearestUnits_mul unitsPerOne_pos _ _
  have hle : nearestUnits (m * unitsPerOne) n ≤ k :=
    nearestUnits_le_of_fits hk hpos (hm ▸ Nat.le_mul_of_pos_right _ hpos)
  obtain ⟨fits, hdiv⟩ := ofRatio_of_nearestUnits_lt (hratio ▸ hle.trans_lt hk.2) (s ^^ t)
  change (ofRatio (s ^^ t) (k * unitsPerOne) l).isFinite = true ∧
    (ofRatio (s ^^ t) (k * unitsPerOne) l).truncate = _
  rw [hdiv]
  refine ⟨rfl, ?_⟩
  rw [truncate, hratio, nearestUnits_div ha hb hpos, tdiv_signedUnits]

theorem IsInteger.rem (hx : x.IsInteger a) (hy : y.IsInteger b) (hb : b ≠ 0) :
    (x.rem y).IsInteger (a.tmod b) := by
  have hzero : y.isZero = false := Bool.not_eq_true _ ▸ hy.isZero_iff.not.2 hb
  obtain ⟨s, k, hk, m, rfl, hm, rfl⟩ := hx.exists_eq
  obtain ⟨t, l, hl, n, rfl, hn, rfl⟩ := hy.exists_eq
  have hne : l ≠ 0 := beq_eq_false_iff_ne.1 hzero
  have hrest : k % l = m % n * unitsPerOne := by
    rw [hm, hn, Nat.mul_mod_mul_right]
  rw [Double.rem, if_neg hne, ofUnits_of_fits (hk.mod hl (Nat.pos_of_ne_zero hne)),
    isInteger_finite_iff]
  exact ⟨m % n, hrest, tmod_signedUnits s t m n⟩

end Double

namespace Operator

open Double

variable {x y : Double} {a b : Int}

theorem compute_intDivide (hx : x.IsInteger a) (hy : y.IsInteger b) (ha : a.natAbs ≤ 2 ^ 53)
    (hb : b.natAbs ≤ 2 ^ 53) (hne : b ≠ 0) :
    ∃ u, intDivide.compute x (.double y) = .ok u ∧ u.IsInteger (a.tdiv b) := by
  have hzero : y.isZero = false := Bool.not_eq_true _ ▸ hy.isZero_iff.not.2 hne
  obtain ⟨hfinite, htruncate⟩ := hx.truncate_div hy ha hb hzero
  have hq : Representable (a.tdiv b) := representable_of_truncate htruncate
  have hquotient : truncatedQuotient x y hzero = .ok (ofInt (a.tdiv b)) := by
    rw [truncatedQuotient, if_pos hfinite, htruncate, ok_bind, hq.integerToDouble]
  exact ⟨_, (dif_pos hzero).trans hquotient, hq.isWhole, hq.truncate⟩

theorem compute_modulo (hx : x.IsInteger a) (hy : y.IsInteger b) (hne : b ≠ 0) :
    ∃ v, modulo.compute x (.double y) = .ok v ∧ v.IsInteger (a.tmod b) := by
  have hr := hx.rem hy hne
  have hremainder : remainder x y = .ok (x.rem y) := by
    obtain ⟨_, _, _, _, heq, -, -⟩ := hr.exists_eq
    rw [remainder, heq]
    rfl
  exact ⟨_, (if_neg (hy.isZero_iff.not.2 hne)).trans hremainder, hr⟩

/-- The integer quotient and the remainder of two integers of at most `2 ^ 53` are integers, by
which the dividend is divided exactly and toward zero. Both are zero if the divisor is. -/
theorem quotient_and_remainder (source : Source) (hx : x.IsInteger a) (hy : y.IsInteger b)
    (ha : |a| ≤ 2 ^ 53) (hb : |b| ≤ 2 ^ 53) (earlier : List Request) :
    ∃ u v, intDivide.apply source [.double x, .double y] earlier = (.ok u, earlier) ∧
      modulo.apply source [.double x, .double y] earlier = (.ok v, earlier) ∧
      (b ≠ 0 → ∃ q r, u.IsInteger q ∧ v.IsInteger r ∧ a = q * b + r ∧ |r| < |b| ∧
        (r = 0 ∨ r.sign = a.sign)) ∧
      (b = 0 → u = .zero ∧ v = .zero) := by
  by_cases hzero : b = 0
  · have hdivisor : y.isZero = true := hy.isZero_iff.2 hzero
    have hquotient : intDivide.compute x (.double y) = .ok .zero := dif_neg (by simp [hdivisor])
    have hrest : modulo.compute x (.double y) = .ok .zero := if_pos hdivisor
    exact ⟨.zero, .zero, apply_pair (by decide) hquotient source earlier,
      apply_pair (by decide) hrest source earlier, fun hne => absurd hzero hne,
      fun _ => ⟨rfl, rfl⟩⟩
  · have hdividend := abs_le.1 ha
    have hdivisor := abs_le.1 hb
    obtain ⟨u, hquotient, hu⟩ := compute_intDivide hx hy (by omega) (by omega) hzero
    obtain ⟨v, hrest, hv⟩ := compute_modulo hx hy hzero
    refine ⟨u, v, apply_pair (by decide) hquotient source earlier,
      apply_pair (by decide) hrest source earlier, fun _ => ?_, fun heq => absurd heq hzero⟩
    refine ⟨_, _, hu, hv, (Int.tdiv_mul_add_tmod a b).symm, ?_, ?_⟩
    · rw [Int.abs_eq_natAbs, Int.abs_eq_natAbs, Int.natAbs_tmod]
      exact Int.ofNat_lt.2 (Nat.mod_lt _ (Int.natAbs_pos.2 hzero))
    · by_cases hdvd : b ∣ a
      · exact .inl (Int.tmod_eq_zero_of_dvd hdvd)
      · exact .inr ((Int.sign_tmod a b).trans (if_neg hdvd))

theorem quotient_and_remainder_close :
    let x := ofInt (-9007199254740989)
    let y := ofInt 3
    (x.IsInteger (-9007199254740989) ∧ y.IsInteger 3) ∧
      (∃ u v, intDivide.apply .lowest [.double x, .double y] [] = (.ok u, []) ∧
        modulo.apply .lowest [.double x, .double y] [] = (.ok v, []) ∧
        ∃ q r, u.IsInteger q ∧ v.IsInteger r ∧ -9007199254740989 = q * 3 + r ∧ |r| < |3| ∧
          (r = 0 ∨ r.sign = (-9007199254740989 : Int).sign)) ∧
      intDivide.apply .lowest [.double x, .double y] [] =
        (.ok (ofInt (-3002399751580329)), []) ∧
      modulo.apply .lowest [.double x, .double y] [] = (.ok (ofInt (-2)), []) := by
  intro x y
  have hx : x.IsInteger (-9007199254740989) := by decide +kernel
  have hy : y.IsInteger 3 := by decide +kernel
  obtain ⟨u, v, hu, hv, hparts, -⟩ :=
    quotient_and_remainder .lowest hx hy (by decide) (by decide) []
  exact ⟨⟨hx, hy⟩, ⟨u, v, hu, hv, hparts (by decide)⟩, by decide +kernel, by decide +kernel⟩

end Operator

end PolishCalc
