import PolishCalc.Proofs.Number.Places

namespace PolishCalc

def Representable (n : Int) : Prop :=
  Fits (n.natAbs * unitsPerOne)

instance (n : Int) : Decidable (Representable n) :=
  inferInstanceAs (Decidable (Fits _))

theorem nearestUnits_of_dvd {n : Nat} (h : spacing n ∣ n) : nearestUnits n 1 = n := by
  have hpos := spacing_pos n
  obtain ⟨m, hm⟩ := h
  rw [nearestUnits, Nat.div_one, Nat.one_mul]
  generalize spacing n = s at hm hpos ⊢
  rw [hm, Nat.mul_comm s m, nearest_mul_self hpos]

theorem unitsPerOne_dvd_nearestUnits (a : Nat) :
    unitsPerOne ∣ nearestUnits (a * unitsPerOne) 1 := by
  rcases Nat.le_total ((a * unitsPerOne).log2 - 52) unitExponent with hle | hle
  -- the numbers that fit are at most one apart there, and nothing is rounded
  · have hdvd : spacing (a * unitsPerOne) ∣ unitsPerOne := by
      conv_rhs => rw [unitsPerOne_eq]
      exact Nat.pow_dvd_pow 2 hle
    rw [nearestUnits_of_dvd (Nat.dvd_mul_left_of_dvd hdvd a)]
    exact Nat.dvd_mul_left ..
  · have hdvd : unitsPerOne ∣ spacing (a * unitsPerOne) := by
      conv_lhs => rw [unitsPerOne_eq]
      exact Nat.pow_dvd_pow 2 hle
    rw [nearestUnits, Nat.div_one]
    exact Nat.dvd_mul_left_of_dvd hdvd _

theorem exists_nearestUnits_eq {a b : Nat} (hb : Fits (b * unitsPerOne)) (h : a ≤ b) :
    ∃ c, nearestUnits (a * unitsPerOne) 1 = c * unitsPerOne ∧ Fits (c * unitsPerOne) ∧ c ≤ b ∧
      ∀ d ≤ a, Fits (d * unitsPerOne) → d ≤ c := by
  have hle : nearestUnits (a * unitsPerOne) 1 ≤ b * unitsPerOne :=
    nearestUnits_le_of_fits hb Nat.one_pos (by simpa using Nat.mul_le_mul_right unitsPerOne h)
  have hfits : Fits (nearestUnits (a * unitsPerOne) 1) :=
    ⟨nearestUnits_mod .., hle.trans_lt hb.2⟩
  obtain ⟨c, hc⟩ := unitsPerOne_dvd_nearestUnits a
  rw [Nat.mul_comm unitsPerOne c] at hc
  rw [hc] at hle hfits
  refine ⟨c, hc, hfits, Nat.le_of_mul_le_mul_right hle unitsPerOne_pos, fun d hd hfitsD => ?_⟩
  refine Nat.le_of_mul_le_mul_right ?_ unitsPerOne_pos
  rw [← hc]
  exact le_nearestUnits_of_fits hfitsD Nat.one_pos
    (by simpa using Nat.mul_le_mul_right unitsPerOne hd)

namespace Double

theorem signedUnits_natAbs (n : Int) : signedUnits (decide (n < 0)) n.natAbs = n := by
  rw [signedUnits]
  split <;> simp only [decide_eq_true_eq] at * <;> omega

theorem ofInt_signedUnits {negative : Bool} {n : Nat} (h : negative = true → 0 < n) :
    ofInt (signedUnits negative n) = ofUnits negative (n * unitsPerOne) := by
  rw [ofInt, natAbs_signedUnits]
  congr 1
  cases negative with
  | false => simp [signedUnits]
  | true => simpa [signedUnits] using h rfl

end Double

open Double

theorem representable_of_truncate {x : Double} {n : Int} (h : x.truncate = .ok n) :
    Representable n := by
  cases x with
  | nan => cases h
  | infinity negative => cases h
  | finite negative units fits =>
    obtain rfl := Except.ok.inj h
    rw [Representable, natAbs_signedUnits]
    exact fits.truncate

namespace Representable

variable {n : Int}

theorem ofInt_eq (h : Representable n) :
    ofInt n = .finite (decide (n < 0)) (n.natAbs * unitsPerOne) h :=
  ofUnits_of_fits h _

theorem integerToDouble (h : Representable n) : Operand.integerToDouble n = .ok (ofInt n) := by
  rw [Operand.integerToDouble, h.ofInt_eq]
  rfl

theorem isFinite (h : Representable n) : (ofInt n).isFinite = true := by
  rw [h.ofInt_eq]
  rfl

theorem isWhole (h : Representable n) : (ofInt n).isWhole = true := by
  rw [h.ofInt_eq]
  exact beq_iff_eq.2 (Nat.mul_mod_left ..)

theorem truncate (h : Representable n) : (ofInt n).truncate = .ok n := by
  have hquotient := Nat.mul_div_cancel n.natAbs unitsPerOne_pos
  rw [h.ofInt_eq]
  change Except.ok (signedUnits _ (n.natAbs * unitsPerOne / unitsPerOne)) = _
  rw [hquotient, signedUnits_natAbs]

end Representable

theorem ofInt_eq_of_nearestUnits {n : Int} {c : Nat}
    (hc : nearestUnits (n.natAbs * unitsPerOne) 1 = c * unitsPerOne)
    (hfits : Fits (c * unitsPerOne)) (hpos : n < 0 → 0 < c) :
    ofInt n = ofInt (signedUnits (decide (n < 0)) c) := by
  have hlt : nearestUnits (n.natAbs * unitsPerOne) 1 < overflowUnits := hc ▸ hfits.2
  obtain ⟨fits, heq⟩ := ofRatio_of_nearestUnits_lt hlt (decide (n < 0))
  rw [ofInt_signedUnits (by simpa using hpos), ofUnits_of_fits hfits, ofInt, ofUnits, heq]
  simp only [hc]

theorem exists_ofInt_eq {low high n : Int} (hlow : Representable low)
    (hhigh : Representable high) (hle : low ≤ n) (hle' : n ≤ high) :
    ∃ m, ofInt n = ofInt m ∧ Representable m ∧ low ≤ m ∧ m ≤ high := by
  rcases Int.lt_or_le n 0 with hneg | hpos
  · obtain ⟨c, hc, hfits, hcle, hge⟩ :=
      exists_nearestUnits_eq (a := n.natAbs) (b := low.natAbs) hlow (by omega)
    have hone : 1 ≤ c := hge 1 (by omega) (by simpa using fits_unitsPerOne)
    refine ⟨_, ofInt_eq_of_nearestUnits hc hfits fun _ => hone, ?_, ?_, ?_⟩
    · rwa [Representable, natAbs_signedUnits]
    · simp only [signedUnits, hneg, decide_true, if_true]
      omega
    · simp only [signedUnits, hneg, decide_true, if_true]
      by_cases hnegative : high < 0
      · have := hge high.natAbs (by omega) hhigh
        omega
      · omega
  · obtain ⟨c, hc, hfits, hcle, hge⟩ :=
      exists_nearestUnits_eq (a := n.natAbs) (b := high.natAbs) hhigh (by omega)
    have hsign : decide (n < 0) = false := decide_eq_false (by omega)
    refine ⟨_, ofInt_eq_of_nearestUnits hc hfits (by omega), ?_, ?_, ?_⟩
    · rwa [Representable, natAbs_signedUnits]
    · simp only [signedUnits, hsign, Bool.false_eq_true, if_false]
      by_cases hpositive : 0 < low
      · have := hge low.natAbs (by omega) hlow
        omega
      · omega
    · simp only [signedUnits, hsign, Bool.false_eq_true, if_false]
      omega

theorem magnitudeAtLeast_ofRatio {num den : Nat} (hden : 0 < den)
    (h : 2 ^ 52 * unitsPerOne * den ≤ num) (negative : Bool) :
    (ofRatio negative num den).magnitudeAtLeast wholeFrom = true := by
  rw [wholeFrom_eq]
  by_cases hlt : nearestUnits num den < overflowUnits
  · obtain ⟨fits, heq⟩ := ofRatio_of_nearestUnits_lt hlt negative
    rw [heq, magnitudeAtLeast_finite]
    exact le_nearestUnits_of_fits (fits_whole (by decide)) hden h
  · rw [ofRatio, dif_neg hlt]
    rfl

theorem nearestUnits_of_ofRatio_eq {negative negative' : Bool} {num den k : Nat} {fits : Fits k}
    (h : ofRatio negative num den = .finite negative' k fits) : nearestUnits num den = k := by
  rw [ofRatio] at h
  split at h
  · injection h
  · cases h

theorem exists_tenPow_eq {digits : Nat} (hdigits : digits ≤ mostPlaces) :
    ∃ k fits, tenPow digits = .finite false k fits ∧
      (k = 10 ^ digits * unitsPerOne ∨ 2 ^ 53 * unitsPerOne ≤ k) := by
  obtain ⟨k, fits, hpow, -⟩ := tenPow_eq hdigits
  refine ⟨k, fits, hpow, ?_⟩
  rcases Nat.lt_or_ge digits 16 with hsmall | hlarge
  · have hexact : 10 ^ digits ≤ 2 ^ 53 :=
      (Nat.pow_le_pow_right (by decide) (Nat.le_of_lt_succ hsmall)).trans (by decide)
    rw [tenPow, if_neg (by omega), Nat.pow_eq, ofUnits_of_fits (fits_whole hexact)] at hpow
    injection hpow with _ hk
    exact .inl hk.symm
  · have hunits : 2 ^ 53 * unitsPerOne ≤ 10 ^ digits * unitsPerOne :=
      Nat.mul_le_mul_right _
        ((show 2 ^ 53 ≤ 10 ^ 16 by decide).trans (Nat.pow_le_pow_right (by decide) hlarge))
    right
    rw [tenPow] at hpow
    split at hpow
    · rw [← nearestUnits_of_ofRatio_eq hpow]
      refine le_nearestUnits_of_fits (fits_whole (by decide)) Nat.one_pos ?_
      rw [Nat.mul_one]
      exact hunits.trans (Nat.le_add_right ..)
    · rw [← nearestUnits_of_ofRatio_eq hpow]
      exact le_nearestUnits_of_fits (fits_whole (by decide)) Nat.one_pos
        ((Nat.mul_one _).le.trans hunits)

theorem belowHalf_lt : belowHalf < unitsPerOne := by
  rw [belowHalf_eq, unitsPerOne_eq]
  decide +kernel

theorem nearestWhole_whole (m : Nat) : NearestWhole (m * unitsPerOne) m := by
  have hpos := unitsPerOne_pos
  rw [NearestWhole, Nat.add_mul]
  constructor <;> omega

theorem roundsToWhole_whole {m : Nat} (h : 0 < m) : RoundsToWhole (m * unitsPerOne) m := by
  refine ⟨fun _ => nearestWhole_whole m, fun heq => ?_⟩
  have hle := Nat.le_mul_of_pos_left unitsPerOne h
  have hlt := belowHalf_lt
  omega

theorem decimal_mul_pow {digits a k : Nat} {fits : Fits k}
    (hpow : tenPow digits = .finite false k fits) (hk : k = 10 ^ digits * unitsPerOne)
    (hsmall : a * 10 ^ digits < 2 ^ 52) (ha : Fits (a * unitsPerOne)) :
    decimal digits (a * 10 ^ digits) = .finite false (a * unitsPerOne) ha := by
  have hpos : 0 < k := hk ▸ Nat.mul_pos (Nat.pow_pos (by decide)) unitsPerOne_pos
  rw [decimal]
  generalize isZero_tenPow digits = hzero
  revert hzero
  rw [hpow, ofInt_natCast (show a * 10 ^ digits ≤ 2 ^ 53 by omega)]
  intro hzero
  change ofRatio (false ^^ false) (a * 10 ^ digits * unitsPerOne * unitsPerOne) k = _
  have hunits : a * 10 ^ digits * unitsPerOne * unitsPerOne = a * unitsPerOne * k := by
    rw [hk]
    ring
  rw [hunits]
  exact ofRatio_of_fits ha hpos _

theorem Representable.roundAt {n : Int} (h : Representable n) (digits : Nat) :
    (ofInt n).roundAt digits = .ok (ofInt n) := by
  by_cases hzero : n = 0
  · rw [hzero, ofInt_zero]
    exact roundAt_zero digits
  by_cases hdigits : mostPlaces < digits
  · exact if_pos hdigits
  replace hdigits := Nat.not_lt.1 hdigits
  have hpos : 0 < n.natAbs := Int.natAbs_pos.2 hzero
  obtain ⟨k, fits, hpow, hk⟩ := exists_tenPow_eq hdigits
  have hscaled : (ofInt n).abs.mul (tenPow digits) =
      ofRatio false (n.natAbs * unitsPerOne * k) unitsPerOne := by
    rw [h.ofInt_eq, hpow]
    rfl
  by_cases hlarge : 2 ^ 52 * unitsPerOne * unitsPerOne ≤ n.natAbs * unitsPerOne * k
  · refine roundAt_of_large ?_
    rw [hscaled]
    exact magnitudeAtLeast_ofRatio unitsPerOne_pos hlarge false
  rcases hk with hk | hk
  · have hunits : n.natAbs * unitsPerOne * k =
        n.natAbs * 10 ^ digits * unitsPerOne * unitsPerOne := by
      rw [hk]
      ring
    rw [hunits] at hscaled hlarge
    have hsmall : n.natAbs * 10 ^ digits < 2 ^ 52 := by
      by_contra hnot
      exact hlarge (Nat.mul_le_mul_right _ (Nat.mul_le_mul_right _ (Nat.not_lt.1 hnot)))
    have hwhole : 0 < n.natAbs * 10 ^ digits := Nat.mul_pos hpos (Nat.pow_pos (by decide))
    rw [ofRatio_of_fits (fits_whole (by omega)) unitsPerOne_pos] at hscaled
    rw [roundAt_eq hdigits hscaled (Nat.mul_lt_mul_of_pos_right hsmall unitsPerOne_pos)
      (roundsToWhole_whole hwhole), signedDecimal, decimal_mul_pow hpow hk hsmall h,
      if_neg (by simpa [isZero] using ⟨hzero, unitsPerOne_pos.ne'⟩), h.ofInt_eq]
    rfl
  · refine absurd ?_ hlarge
    calc 2 ^ 52 * unitsPerOne * unitsPerOne
        ≤ 2 ^ 53 * unitsPerOne * unitsPerOne :=
          Nat.mul_le_mul_right _ (Nat.mul_le_mul_right _ (by decide))
      _ ≤ k * (n.natAbs * unitsPerOne) :=
          Nat.mul_le_mul hk (Nat.le_mul_of_pos_left _ hpos)
      _ = n.natAbs * unitsPerOne * k := Nat.mul_comm ..

end PolishCalc
