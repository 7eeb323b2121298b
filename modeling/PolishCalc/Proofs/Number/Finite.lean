import PolishCalc.Number.Rounding
import PolishCalc.Proofs.Number.Nearest

namespace PolishCalc

theorem unitsPerOne_eq : unitsPerOne = 2 ^ unitExponent := by
  unfold unitsPerOne
  generalize unitExponent = e
  rfl

theorem overflowUnits_eq : overflowUnits = 2 ^ (unitExponent + 1024) := by
  unfold overflowUnits
  generalize unitExponent + 1024 = e
  rfl

theorem fits_pow {e : Nat} (h : e < unitExponent + 1024) : Fits (2 ^ e) := by
  refine ⟨Nat.mod_eq_zero_of_dvd (spacing_dvd_pow ?_), ?_⟩
  · rw [Nat.log2_two_pow]
    omega
  · rw [overflowUnits_eq]
    exact Nat.pow_lt_pow_right (by decide) h

theorem Fits.truncate {k : Nat} (h : Fits k) : Fits (k / unitsPerOne * unitsPerOne) := by
  rcases Nat.le_total (k.log2 - 52) unitExponent with hle | hle
  · have hdvd : spacing k ∣ unitsPerOne := by
      rw [unitsPerOne_eq]
      exact Nat.pow_dvd_pow 2 hle
    exact h.of_dvd (Nat.div_mul_le_self _ _) (Nat.dvd_mul_left_of_dvd hdvd _)
  · have hdvd : unitsPerOne ∣ spacing k := by
      rw [unitsPerOne_eq]
      exact Nat.pow_dvd_pow 2 hle
    rwa [Nat.div_mul_cancel (Nat.dvd_trans hdvd h.dvd)]

namespace Double

theorem ofRatio_of_fits {k den : Nat} (h : Fits k) (hden : 0 < den) (negative : Bool) :
    ofRatio negative (k * den) den = .finite negative k h := by
  simp only [ofRatio, nearestUnits_of_fits h hden]
  exact dif_pos h.2

theorem ofUnits_of_fits {k : Nat} (h : Fits k) (negative : Bool) :
    ofUnits negative k = .finite negative k h := by
  have := ofRatio_of_fits h Nat.one_pos negative
  rwa [Nat.mul_one] at this

theorem ofRatio_of_nearestUnits_lt {num den : Nat} (h : nearestUnits num den < overflowUnits)
    (negative : Bool) :
    ∃ fits, ofRatio negative num den = .finite negative (nearestUnits num den) fits :=
  ⟨⟨nearestUnits_mod num den, h⟩, dif_pos h⟩

theorem ofRatio_of_lt {num den : Nat} (h : num / den < 2 ^ (unitExponent + 1023))
    (negative : Bool) :
    ∃ fits, ofRatio negative num den = .finite negative (nearestUnits num den) fits := by
  apply ofRatio_of_nearestUnits_lt
  refine Nat.lt_of_le_of_lt (nearestUnits_le_pow num den) ?_
  rw [overflowUnits_eq]
  by_cases hzero : num / den = 0
  · rw [hzero]
    exact Nat.pow_lt_pow_right (by decide) (by simp [unitExponent])
  · have := (Nat.log2_lt hzero).2 h
    exact Nat.pow_lt_pow_right (by decide) (by omega)

theorem exists_of_isFinite {x : Double} (h : x.isFinite = true) :
    ∃ negative units fits, x = .finite negative units fits := by
  cases x with
  | finite negative units fits => exact ⟨negative, units, fits, rfl⟩
  | nan => cases h
  | infinity negative => cases h

theorem truncate_of_isZero {x : Double} (hx : x.isZero = true) : x.truncate = .ok 0 := by
  cases x with
  | finite s a ha =>
    obtain rfl : a = 0 := by simpa [isZero] using hx
    rw [truncate, Nat.zero_div]
    cases s <;> rfl
  | _ => cases hx

theorem isFinite_rem {x y : Double} (hx : x.isFinite = true) (hy : y.isFinite = true)
    (hzero : y.isZero = false) : (x.rem y).isFinite = true := by
  obtain ⟨s, a, ha, rfl⟩ := exists_of_isFinite hx
  obtain ⟨t, b, hb, rfl⟩ := exists_of_isFinite hy
  have hne : b ≠ 0 := by simpa [isZero] using hzero
  rw [rem, if_neg hne, ofUnits_of_fits (ha.mod hb (Nat.pos_of_ne_zero hne))]
  rfl

theorem natAbs_signedUnits (negative : Bool) (n : Nat) : (signedUnits negative n).natAbs = n := by
  cases negative <;> simp [signedUnits]

theorem integerToDouble_truncate {x : Double} (h : x.isFinite = true) :
    ∃ n y, x.truncate = .ok n ∧ Operand.integerToDouble n = .ok y ∧ y.isFinite = true := by
  obtain ⟨s, a, ha, rfl⟩ := exists_of_isFinite h
  refine ⟨_, ofInt (signedUnits s (a / unitsPerOne)), rfl, ?_, ?_⟩
  · rw [Operand.integerToDouble, ofInt, natAbs_signedUnits, ofUnits_of_fits ha.truncate]
    rfl
  · rw [ofInt, natAbs_signedUnits, ofUnits_of_fits ha.truncate]
    rfl

theorem half_eq : half = .finite false (2 ^ (unitExponent - 1)) (fits_pow (by decide)) := by
  rw [half, unitsPerOne_eq, ← Nat.pow_pred_mul (by decide)]
  exact ofRatio_of_fits _ (by decide) false

theorem fits_unitsPerOne : Fits unitsPerOne := by
  rw [unitsPerOne_eq]
  exact fits_pow (by decide)

theorem exists_ofUnits_between {units : Nat} (hlow : unitsPerOne ≤ units)
    (hhigh : units ≤ 10 ^ mostPlaces * unitsPerOne) :
    ∃ k fits, ofUnits false units = .finite false k fits ∧ unitsPerOne ≤ k := by
  have hgreatest : nearestUnits (10 ^ mostPlaces * unitsPerOne) 1 < overflowUnits := by
    decide +kernel
  have hk : nearestUnits units 1 < overflowUnits :=
    Nat.lt_of_le_of_lt (nearestUnits_mono_left hhigh) hgreatest
  obtain ⟨fits, heq⟩ := ofRatio_of_nearestUnits_lt hk false
  refine ⟨_, fits, heq, ?_⟩
  calc unitsPerOne
      = nearestUnits (unitsPerOne * 1) 1 := (nearestUnits_of_fits fits_unitsPerOne Nat.one_pos).symm
    _ ≤ nearestUnits units 1 := nearestUnits_mono_left (by omega)

theorem tenPow_eq {digits : Nat} (h : digits ≤ mostPlaces) :
    ∃ k fits, tenPow digits = .finite false k fits ∧ unitsPerOne ≤ k := by
  have hone : unitsPerOne ≤ 10 ^ digits * unitsPerOne :=
    Nat.le_mul_of_pos_left _ (Nat.pow_pos (by decide))
  have hspacing : spacing (10 ^ digits * unitsPerOne) ≤ 10 ^ digits * unitsPerOne :=
    spacing_le (Nat.lt_of_lt_of_le unitsPerOne_pos hone)
  simp only [tenPow, Nat.pow_eq]
  split
  · rename_i hspecial
    have hnext : 10 ^ (digits + 1) * unitsPerOne ≤ 10 ^ mostPlaces * unitsPerOne := by
      refine Nat.mul_le_mul_right _ (Nat.pow_le_pow_right (by decide) ?_)
      rcases hspecial with rfl | rfl <;> decide
    rw [Nat.pow_succ, Nat.mul_right_comm] at hnext
    exact exists_ofUnits_between (by omega) (by omega)
  · have hpow : 10 ^ digits ≤ 10 ^ mostPlaces := Nat.pow_le_pow_right (by decide) h
    exact exists_ofUnits_between hone (Nat.mul_le_mul_right unitsPerOne hpow)

theorem fits_whole {n : Nat} (h : n ≤ 2 ^ 53) : Fits (n * unitsPerOne) := by
  have hmod : n * unitsPerOne % spacing (n * unitsPerOne) = 0 := by
    unfold unitsPerOne
    exact mul_spacing_mod h
  refine ⟨hmod, ?_⟩
  calc n * unitsPerOne
      ≤ 2 ^ 53 * unitsPerOne := Nat.mul_le_mul_right _ h
    _ < overflowUnits := by
      rw [unitsPerOne_eq, overflowUnits_eq, ← Nat.pow_add]
      exact Nat.pow_lt_pow_right (by decide) (by omega)

theorem ofInt_natCast {n : Nat} (h : n ≤ 2 ^ 53) :
    ofInt n = .finite false (n * unitsPerOne) (fits_whole h) := by
  rw [ofInt, Int.natAbs_natCast, ofUnits_of_fits (fits_whole h)]
  simp

theorem two_mul_pow_pred {e : Nat} (h : 0 < e) : 2 * 2 ^ (e - 1) = 2 ^ e := by
  rw [Nat.mul_comm, Nat.two_pow_pred_mul_two h]

theorem exists_half : ∃ w fits, half = .finite false w fits ∧ 0 < w ∧ 2 * w = unitsPerOne := by
  rw [unitsPerOne_eq]
  exact ⟨_, _, half_eq, Nat.two_pow_pos _, two_mul_pow_pred (by decide)⟩

theorem add_positive {a b : Nat} (ha : Fits a) (hb : Fits b) (h : 0 < b) :
    (finite false a ha).add (finite false b hb) = ofUnits false (a + b) := by
  simp only [add, signedUnits, Bool.false_eq_true, if_false]
  rw [if_neg (by omega), ← Int.natCast_add, Int.natAbs_natCast, decide_eq_false (by omega)]

theorem exists_truncate_add_half {k : Nat} {fits : Fits k} (h : k < 2 ^ 52 * unitsPerOne) :
    ∃ n : Nat, n ≤ 2 ^ 53 ∧ ((finite false k fits).add half).truncate = .ok n := by
  obtain ⟨w, hw, hhalf, hpos, htwice⟩ := exists_half
  have hle : nearestUnits (k + w) 1 ≤ 2 ^ 53 * unitsPerOne := by
    calc nearestUnits (k + w) 1
        ≤ nearestUnits (2 ^ 53 * unitsPerOne * 1) 1 := nearestUnits_mono_left (by omega)
      _ = 2 ^ 53 * unitsPerOne := nearestUnits_of_fits (fits_whole (Nat.le_refl _)) Nat.one_pos
  obtain ⟨hfits, heq⟩ := ofRatio_of_nearestUnits_lt
    (Nat.lt_of_le_of_lt hle (fits_whole (Nat.le_refl _)).2) false
  refine ⟨nearestUnits (k + w) 1 / unitsPerOne, Nat.div_le_of_le_mul (by rwa [Nat.mul_comm]), ?_⟩
  rw [hhalf, add_positive fits hw hpos, ofUnits, heq]
  rfl

theorem truncate_zero_add_half : (zero.add half).truncate = .ok 0 := by
  obtain ⟨w, hw, hhalf, hpos, htwice⟩ := exists_half
  have hwhole : w / unitsPerOne = 0 := Nat.div_eq_of_lt (by omega)
  rw [hhalf, zero, zeroOf, add_positive fits_zero hw hpos, Nat.zero_add, ofUnits_of_fits hw,
    truncate, hwhole]
  rfl

theorem isFinite_div_tenPow {n digits : Nat} (hn : n ≤ 2 ^ 53) (hdigits : digits ≤ mostPlaces) :
    ((ofInt n).div (tenPow digits) (isZero_tenPow digits)).isFinite = true := by
  obtain ⟨b, hb, hpow, hone⟩ := tenPow_eq hdigits
  generalize isZero_tenPow digits = hzero
  revert hzero
  rw [hpow, ofInt_natCast hn]
  intro hzero
  have hlt : n * unitsPerOne * unitsPerOne / b < 2 ^ (unitExponent + 1023) := by
    calc n * unitsPerOne * unitsPerOne / b
        ≤ n * unitsPerOne * unitsPerOne / unitsPerOne := Nat.div_le_div_left hone unitsPerOne_pos
      _ = n * unitsPerOne := Nat.mul_div_cancel _ unitsPerOne_pos
      _ ≤ 2 ^ 53 * unitsPerOne := Nat.mul_le_mul_right _ hn
      _ < 2 ^ (unitExponent + 1023) := by
        rw [unitsPerOne_eq, ← Nat.pow_add]
        exact Nat.pow_lt_pow_right (by decide) (by omega)
  obtain ⟨fits, heq⟩ := ofRatio_of_lt hlt (false ^^ false)
  exact (congrArg isFinite heq).trans rfl

theorem isFinite_withSign (negative : Bool) (x : Double) :
    (x.withSign negative).isFinite = x.isFinite := by
  cases x <;> rfl

theorem magnitudeAtLeast_finite {n k : Nat} {negative : Bool} {fits : Fits k} :
    (finite negative k fits).magnitudeAtLeast n = true ↔ n * unitsPerOne ≤ k := by
  simp only [magnitudeAtLeast, decide_eq_true_eq]

theorem wholeFrom_eq : wholeFrom = 2 ^ 52 := rfl

theorem exists_scaled {digits : Nat} (hdigits : digits ≤ mostPlaces) {x : Double}
    (hx : x.isFinite = true)
    (hsmall : ¬ (x.abs.mul (tenPow digits)).magnitudeAtLeast wholeFrom = true) :
    ∃ k fits, x.abs.mul (tenPow digits) = .finite false k fits ∧ k < 2 ^ 52 * unitsPerOne := by
  obtain ⟨s, a, ha, rfl⟩ := exists_of_isFinite hx
  obtain ⟨b, hb, hpow, -⟩ := tenPow_eq hdigits
  rw [hpow] at hsmall ⊢
  change ¬ (ofRatio false (a * b) unitsPerOne).magnitudeAtLeast wholeFrom = true at hsmall
  change ∃ k fits, ofRatio false (a * b) unitsPerOne = _ ∧ _
  by_cases hlt : nearestUnits (a * b) unitsPerOne < overflowUnits
  · obtain ⟨fits, heq⟩ := ofRatio_of_nearestUnits_lt hlt false
    rw [heq, magnitudeAtLeast_finite, wholeFrom_eq] at hsmall
    exact ⟨_, fits, heq, Nat.not_le.1 hsmall⟩
  · rw [ofRatio, dif_neg hlt] at hsmall
    exact absurd rfl hsmall

theorem exists_roundAt (digits : Nat) {x : Double} (h : x.isFinite = true) :
    ∃ y, x.roundAt digits = .ok y ∧ y.isFinite = true := by
  unfold roundAt
  split
  · exact ⟨x, rfl, h⟩
  · rename_i hdigits
    have hle : digits ≤ mostPlaces := Nat.not_lt.1 hdigits
    dsimp only
    split
    · exact ⟨x, rfl, h⟩
    · rename_i hsmall
      obtain ⟨k, fits, hscaled, hk⟩ := exists_scaled hle h hsmall
      obtain ⟨n, hn, htruncate⟩ := exists_truncate_add_half hk
      rw [hscaled, htruncate]
      refine ⟨_, rfl, ?_⟩
      dsimp only
      split
      · rfl
      · rw [copySign, isFinite_withSign]
        exact isFinite_div_tenPow hn hle

theorem ofRatio_zero {den : Nat} (h : 0 < den) (negative : Bool) :
    ofRatio negative 0 den = zeroOf negative := by
  have := ofRatio_of_fits fits_zero h negative
  rwa [Nat.zero_mul] at this

theorem ofInt_zero : ofInt 0 = zero := by
  change ofUnits false (0 * unitsPerOne) = zero
  rw [Nat.zero_mul]
  exact ofRatio_zero Nat.one_pos false

theorem isZero_zero_div {y : Double} (hfinite : y.isFinite = true) (h : y.isZero = false) :
    (zero.div y h).isZero = true := by
  obtain ⟨s, b, hb, rfl⟩ := exists_of_isFinite hfinite
  have hpos : 0 < b := Nat.pos_of_ne_zero (by simpa [isZero] using h)
  change (ofRatio (false ^^ s) (0 * unitsPerOne) b).isZero = true
  rw [Nat.zero_mul, ofRatio_zero hpos]
  rfl

theorem roundAt_zeroOf (negative : Bool) (digits : Nat) : (zeroOf negative).roundAt digits =
    .ok (if mostPlaces < digits then zeroOf negative else zero) := by
  unfold roundAt
  split
  · rfl
  · rename_i hdigits
    obtain ⟨b, hb, hpow, -⟩ := tenPow_eq (Nat.not_lt.1 hdigits)
    have hscaled : (zeroOf negative).abs.mul (tenPow digits) = zero := by
      rw [hpow]
      change ofRatio (false ^^ false) (0 * b) unitsPerOne = zero
      rw [Nat.zero_mul]
      exact ofRatio_zero unitsPerOne_pos _
    have hsmall : ¬ zero.magnitudeAtLeast wholeFrom = true := by
      rw [zero, zeroOf, magnitudeAtLeast_finite]
      exact Nat.not_le.2 (Nat.mul_pos (by decide) unitsPerOne_pos)
    have hquotient := isZero_zero_div (y := tenPow digits) (by rw [hpow]; rfl)
      (isZero_tenPow digits)
    dsimp only
    rw [hscaled, if_neg hsmall, truncate_zero_add_half]
    change Except.ok (if ((ofInt 0).div _ _).isZero = true then zero else _) = _
    rw [ofInt_zero, if_pos hquotient]

theorem roundAt_zero (digits : Nat) : zero.roundAt digits = .ok zero := by
  refine (roundAt_zeroOf false digits).trans ?_
  split <;> rfl

end Double

end PolishCalc
