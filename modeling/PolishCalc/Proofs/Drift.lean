import PolishCalc.Proofs.Characters
import PolishCalc.Proofs.Number.Places
import PolishCalc.Proofs.RunningAnswer

namespace PolishCalc

section

variable {b n : Nat}

theorem le_or_le_spacing (hb : Fits b) (n : Nat) :
    2 ^ 52 * (b * spacing (n * (unitsPerOne * unitsPerOne) / b)) ≤
        n * (unitsPerOne * unitsPerOne) ∨
      2 ^ 50 * (b * spacing (n * (unitsPerOne * unitsPerOne) / b)) ≤ unitsPerOne * unitsPerOne := by
  generalize hq : n * (unitsPerOne * unitsPerOne) / b = q
  rcases spacing_eq_one_or q with hspacing | hspacing
  · right
    have hlimit : 2 ^ 50 * overflowUnits = unitsPerOne * unitsPerOne := by
      rw [overflowUnits_eq, unitsPerOne_eq, ← Nat.pow_add, ← Nat.pow_add]
      exact congrArg _ (by decide)
    rw [hspacing, Nat.mul_one, ← hlimit]
    exact Nat.mul_le_mul_left _ hb.2.le
  · left
    calc 2 ^ 52 * (b * spacing q)
        = 2 ^ 52 * spacing q * b := by ring
      _ ≤ q * b := Nat.mul_le_mul_right _ hspacing
      _ ≤ n * (unitsPerOne * unitsPerOne) := by
          rw [← hq]
          exact Nat.div_mul_le_self _ _

def stepUnits (b n : Nat) : Nat :=
  nearestUnits (n * (unitsPerOne * unitsPerOne)) b

theorem stepUnits_bounds (hb : Fits b) (hpos : 0 < b) {c : Nat} (hc : c ≤ 2 ^ 51)
    (h : c * n ≤ 2 ^ 53) :
    c * (n * (unitsPerOne * unitsPerOne)) ≤
        c * (stepUnits b n * b) + unitsPerOne * unitsPerOne ∧
      c * (stepUnits b n * b) ≤
        c * (n * (unitsPerOne * unitsPerOne)) + unitsPerOne * unitsPerOne := by
  obtain ⟨hlow, hhigh⟩ := nearestUnits_bounds hpos (n * (unitsPerOne * unitsPerOne))
  have hspacing := le_or_le_spacing hb n
  rw [← stepUnits] at hlow hhigh
  generalize b * spacing (n * (unitsPerOne * unitsPerOne) / b) = e at hlow hhigh hspacing
  generalize stepUnits b n * b = t at hlow hhigh ⊢
  generalize unitsPerOne * unitsPerOne = u at hlow hhigh hspacing ⊢
  have herror : c * e ≤ 2 * u := by
    rcases hspacing with hlarge | hsmall
    · refine Nat.le_of_mul_le_mul_left ?_ (Nat.two_pow_pos 52)
      calc 2 ^ 52 * (c * e)
          = c * (2 ^ 52 * e) := Nat.mul_left_comm ..
        _ ≤ c * (n * u) := Nat.mul_le_mul_left c hlarge
        _ = c * n * u := (Nat.mul_assoc ..).symm
        _ ≤ 2 ^ 53 * u := Nat.mul_le_mul_right u h
        _ = 2 ^ 52 * (2 * u) := by omega
    · refine Nat.le_of_mul_le_mul_left ?_ (Nat.two_pow_pos 50)
      calc 2 ^ 50 * (c * e)
          = c * (2 ^ 50 * e) := Nat.mul_left_comm ..
        _ ≤ c * u := Nat.mul_le_mul_left c hsmall
        _ ≤ 2 ^ 51 * u := Nat.mul_le_mul_right u hc
        _ = 2 ^ 50 * (2 * u) := by omega
  have hlow' := Nat.mul_le_mul_left c hlow
  have hhigh' := Nat.mul_le_mul_left c hhigh
  rw [Nat.mul_add, Nat.mul_left_comm c 2, Nat.mul_left_comm c 2] at hlow' hhigh'
  omega

theorem stepUnits_lt (hb : Fits b) (hpos : 0 < b) (h : n < 2 ^ 52) :
    stepUnits b n < stepUnits b (n + 1) := by
  have hsquare : 0 < unitsPerOne * unitsPerOne := Nat.mul_pos unitsPerOne_pos unitsPerOne_pos
  have hhigh := (nearestUnits_bounds hpos (n * (unitsPerOne * unitsPerOne))).2
  rw [← stepUnits] at hhigh
  obtain ⟨hlow, -⟩ := stepUnits_bounds hb hpos (show 2 ≤ 2 ^ 51 by decide)
    (show 2 * (n + 1) ≤ 2 ^ 53 by omega)
  have hspacing := le_or_le_spacing hb n
  have hle := Nat.mul_le_mul_right (unitsPerOne * unitsPerOne) (show n + 1 ≤ 2 ^ 52 from h)
  rw [Nat.add_mul] at hlow hle
  by_contra hnot
  have := Nat.mul_le_mul_right b (Nat.not_lt.1 hnot)
  omega

theorem stepUnits_pos (hb : Fits b) (hpos : 0 < b) (hn : 0 < n) (h : n ≤ 2 ^ 52) :
    0 < stepUnits b n := by
  have hsquare : 0 < unitsPerOne * unitsPerOne := Nat.mul_pos unitsPerOne_pos unitsPerOne_pos
  obtain ⟨hlow, -⟩ := stepUnits_bounds hb hpos (show 2 ≤ 2 ^ 51 by decide)
    (show 2 * n ≤ 2 ^ 53 by omega)
  have hle := Nat.mul_le_mul_right (unitsPerOne * unitsPerOne) hn
  by_contra hnot
  rw [Nat.eq_zero_of_not_pos hnot] at hlow
  omega

theorem stepUnits_mul_bounds (hb : Fits b) (hpos : 0 < b) {c e : Nat}
    (hone : unitsPerOne = c * 2 ^ e) (hc : c ≤ 2 ^ 51) (h : c * n ≤ 2 ^ 53) :
    (c * n - 1) * 2 ^ e * unitsPerOne ≤ stepUnits b n * b ∧
      stepUnits b n * b ≤ (c * n + 1) * 2 ^ e * unitsPerOne := by
  have hcpos : 0 < c := by
    by_contra hzero
    have := unitsPerOne_pos
    rw [hone, Nat.eq_zero_of_not_pos hzero, Nat.zero_mul] at this
    exact absurd this (Nat.lt_irrefl 0)
  have hsquare : unitsPerOne * unitsPerOne = c * (2 ^ e * unitsPerOne) := by
    rw [← Nat.mul_assoc, ← hone]
  have hsteps : n * (unitsPerOne * unitsPerOne) = c * n * (2 ^ e * unitsPerOne) := by
    rw [hsquare, Nat.mul_left_comm, Nat.mul_assoc]
  obtain ⟨hlow, hhigh⟩ := stepUnits_bounds hb hpos hc h
  rw [hsteps, hsquare, ← Nat.mul_add] at hlow hhigh
  have hlow' := Nat.le_of_mul_le_mul_left hlow hcpos
  have hhigh' := Nat.le_of_mul_le_mul_left hhigh hcpos
  constructor
  · rw [Nat.mul_assoc, Nat.sub_mul, Nat.one_mul]
    omega
  · rw [Nat.mul_assoc, Nat.add_mul, Nat.one_mul]
    omega

structure QuarterAt (e : Nat) : Prop where
  fits : e + 53 < unitExponent + 1024
  one : unitsPerOne = 4 * 2 ^ e
  below : belowHalf < 2 * 2 ^ e
  tie : nearestUnits ((2 ^ 53 + 1) * 2 ^ e) 1 = 2 ^ 53 * 2 ^ e

theorem quarterAt : QuarterAt (unitExponent - 2) where
  fits := by decide
  one := by
    rw [unitsPerOne_eq, show 4 = 2 ^ 2 from rfl, ← Nat.pow_add, Nat.add_sub_cancel' (by decide)]
  below := by decide +kernel
  tie := by decide +kernel

theorem QuarterAt.nearestUnits_le {e num : Nat} (he : QuarterAt e) (hn : n ≤ 2 ^ 51)
    (h : num ≤ (4 * n + 1) * 2 ^ e * unitsPerOne) :
    nearestUnits num unitsPerOne ≤ (4 * n + 1) * 2 ^ e := by
  rcases Nat.eq_or_lt_of_le hn with rfl | hlt
  · calc nearestUnits num unitsPerOne
        ≤ nearestUnits ((2 ^ 53 + 1) * 2 ^ e * unitsPerOne) (1 * unitsPerOne) := by
          rw [Nat.one_mul]
          exact nearestUnits_mono_left h
      _ = 2 ^ 53 * 2 ^ e := (nearestUnits_mul unitsPerOne_pos _ _).trans he.tie
      _ ≤ (4 * 2 ^ 51 + 1) * 2 ^ e := Nat.mul_le_mul_right _ (by decide)
  · exact nearestUnits_le_of_fits (fits_mul_pow (by omega) he.fits) unitsPerOne_pos h

theorem roundsToWhole_stepUnits (hb : Fits b) (hpos : 0 < b) (hn : 0 < n) (h : n ≤ 2 ^ 51) :
    RoundsToWhole (nearestUnits (stepUnits b n * b) unitsPerOne) n := by
  obtain ⟨e, he⟩ : ∃ e, QuarterAt e := ⟨_, quarterAt⟩
  obtain ⟨hlow, hhigh⟩ := stepUnits_mul_bounds hb hpos he.one (by decide)
    (show 4 * n ≤ 2 ^ 53 by omega)
  have hk := le_nearestUnits_of_fits (fits_mul_pow (show 4 * n - 1 ≤ 2 ^ 53 by omega) he.fits)
    unitsPerOne_pos hlow
  have hk' := he.nearestUnits_le h hhigh
  generalize nearestUnits (stepUnits b n * b) unitsPerOne = k at hk hk' ⊢
  rw [Nat.sub_mul, Nat.mul_assoc, Nat.one_mul] at hk
  rw [Nat.add_mul, Nat.mul_assoc, Nat.one_mul] at hk'
  have hone := he.one
  have hmul : n * unitsPerOne = 4 * (n * 2 ^ e) := by rw [hone, Nat.mul_left_comm]
  have hstep := Nat.mul_le_mul_right (2 ^ e) hn
  have hquarter := Nat.two_pow_pos e
  have hbelow := he.below
  refine ⟨fun _ => ⟨?_, ?_⟩, fun heq => ?_⟩
  · omega
  · rw [Nat.add_mul]
    omega
  · omega

theorem exists_halves {e : Nat} (hhalf : HalfAt e) (he : e + 53 < unitExponent + 1024)
    (hb : Fits b) (hpos : 0 < b) (hlow : 2 ^ 51 < n) (hhigh : n ≤ 2 ^ 52)
    (hsmall : nearestUnits (stepUnits b n * b) unitsPerOne < 2 ^ 52 * unitsPerOne) :
    ∃ j, nearestUnits (stepUnits b n * b) unitsPerOne = j * 2 ^ e ∧
      2 * n - 1 ≤ j ∧ j ≤ 2 * n + 1 ∧ j < 2 ^ 53 := by
  have hone : unitsPerOne = 2 * 2 ^ e := hhalf.one.trans Nat.pow_succ'
  obtain ⟨hbelow, habove⟩ := stepUnits_mul_bounds hb hpos hone (by decide)
    (show 2 * n ≤ 2 ^ 53 by omega)
  have hk := le_nearestUnits_of_fits (fits_mul_pow (show 2 * n - 1 ≤ 2 ^ 53 by omega) he)
    unitsPerOne_pos hbelow
  have hk' (hn : 2 * n + 1 ≤ 2 ^ 53) :=
    nearestUnits_le_of_fits (fits_mul_pow hn he) unitsPerOne_pos habove
  have hfits : Fits (nearestUnits (stepUnits b n * b) unitsPerOne) := by
    refine ⟨nearestUnits_mod _ _, hsmall.trans ?_⟩
    exact (Double.fits_whole (show 2 ^ 52 ≤ 2 ^ 53 by decide)).2
  generalize nearestUnits (stepUnits b n * b) unitsPerOne = k at hk hk' hsmall hfits ⊢
  obtain ⟨j, rfl⟩ : 2 ^ e ∣ k := by
    refine hfits.pow_dvd ?_
    calc 2 ^ (e + 52)
        = 2 ^ 52 * 2 ^ e := by rw [Nat.pow_add, Nat.mul_comm]
      _ ≤ (2 * n - 1) * 2 ^ e := Nat.mul_le_mul_right _ (by omega)
      _ ≤ k := hk
  have hpow := Nat.two_pow_pos e
  rw [Nat.mul_comm (2 ^ e)] at hk hk' hsmall ⊢
  have hj : j < 2 ^ 53 := by
    refine Nat.lt_of_mul_lt_mul_right (a := 2 ^ e) ?_
    omega
  refine ⟨j, rfl, Nat.le_of_mul_le_mul_right hk hpow, ?_, hj⟩
  rcases Nat.lt_or_ge n (2 ^ 52) with hn | hn
  · exact Nat.le_of_mul_le_mul_right (hk' (by omega)) hpow
  · omega

theorem roundsToWhole_stepUnits_or (hb : Fits b) (hpos : 0 < b) (hlow : 2 ^ 51 < n)
    (hhigh : n ≤ 2 ^ 52)
    (hsmall : nearestUnits (stepUnits b n * b) unitsPerOne < 2 ^ 52 * unitsPerOne) :
    RoundsToWhole (nearestUnits (stepUnits b n * b) unitsPerOne) n ∨ n < 2 ^ 52 ∧
      2 * nearestUnits (stepUnits b n * b) unitsPerOne = (2 * n + 1) * unitsPerOne := by
  obtain ⟨e, hhalf, he⟩ : ∃ e, HalfAt e ∧ e + 53 < unitExponent + 1024 :=
    ⟨_, halfAt, by decide⟩
  obtain ⟨j, hj, hjlow, hjhigh, hjlt⟩ := exists_halves hhalf he hb hpos hlow hhigh hsmall
  have hone : unitsPerOne = 2 * 2 ^ e := hhalf.one.trans Nat.pow_succ'
  have hmul : n * unitsPerOne = 2 * (n * 2 ^ e) := by rw [hone, Nat.mul_left_comm]
  rw [hj]
  rcases Nat.eq_or_lt_of_le hjhigh with rfl | hlt
  · right
    exact ⟨by omega, by rw [hone, Nat.mul_left_comm]⟩
  · left
    have hdown := Nat.mul_le_mul_right (2 ^ e) hjlow
    have hup := Nat.mul_le_mul_right (2 ^ e) (Nat.le_of_lt_succ hlt)
    have hlarge := Nat.mul_le_mul_right (2 ^ e) (show 1 ≤ n by omega)
    rw [Nat.sub_mul, Nat.mul_assoc, Nat.one_mul] at hdown
    rw [Nat.mul_assoc] at hup
    refine ⟨fun _ => ⟨?_, ?_⟩, fun heq => ?_⟩
    · omega
    · rw [Nat.add_mul]
      omega
    · have hbelow := hhalf.below
      have hgap := Nat.two_pow_pos (e - 53)
      omega

theorem RoundsToWhole.lt_of_lt {k m : Nat} (h : RoundsToWhole k m) (hm : 2 ^ 51 < m) :
    2 ^ 51 * unitsPerOne ≤ k := by
  have hone := unitsPerOne_pos
  by_cases hne : k = belowHalf
  · rw [h.2 hne] at hm
    omega
  · have hlow := (h.1 hne).1
    have hlarge := Nat.mul_le_mul_right unitsPerOne hm
    rw [Nat.succ_mul] at hlarge
    omega

theorem roundsToWhole_of_half {k m : Nat} (hm : 2 ^ 51 < m)
    (h : 2 * k = (2 * m + 1) * unitsPerOne) : RoundsToWhole k (m + 1) := by
  have hone := unitsPerOne_pos
  have hdouble : (2 * m + 1) * unitsPerOne = 2 * (m * unitsPerOne) + unitsPerOne := by ring
  have hlarge := Nat.mul_le_mul_right unitsPerOne hm.le
  refine ⟨fun _ => ⟨?_, ?_⟩, fun heq => ?_⟩
  · rw [Nat.add_mul]
    omega
  · rw [Nat.add_mul, Nat.add_mul]
    omega
  · obtain ⟨e, he⟩ : ∃ e, HalfAt e := ⟨_, halfAt⟩
    have hbelow := he.below
    have hhalf := he.one.trans Nat.pow_succ'
    have hgap := Nat.two_pow_pos (e - 53)
    omega

end

namespace Double

/-- Scaled up again, the number `y` of `m` steps of the last place is half a step more, and so it is
rounded to another number, that of `m + 1` steps. -/
structure Drifts (digits m : Nat) (y : Double) : Prop where
  low : 2 ^ 51 < m
  high : m < 2 ^ 52
  steps : y = signedDecimal digits m y
  scaled : y.abs.mul (tenPow digits) = ofRatio false ((2 * m + 1) * unitsPerOne) 2
  rounded : y.roundAt digits = .ok (signedDecimal digits (m + 1) y)
  moved : (signedDecimal digits (m + 1) y).sameNumber y = false

section

variable {digits b m : Nat} {hb : Fits b}

theorem decimal_eq (hdigits : digits ≤ mostPlaces) (hpow : tenPow digits = .finite false b hb)
    (h : m ≤ 2 ^ 53) : ∃ fits, decimal digits m = .finite false (stepUnits b m) fits := by
  have hfinite : (decimal digits m).isFinite = true := isFinite_div_tenPow h hdigits
  have heq : decimal digits m = ofRatio false (m * (unitsPerOne * unitsPerOne)) b := by
    rw [decimal]
    generalize isZero_tenPow digits = hzero
    revert hzero
    rw [hpow, ofInt_natCast h, ← Nat.mul_assoc]
    intro hzero
    rfl
  rw [heq] at hfinite ⊢
  by_cases hlt : nearestUnits (m * (unitsPerOne * unitsPerOne)) b < overflowUnits
  · exact ofRatio_of_nearestUnits_lt hlt false
  · rw [ofRatio, dif_neg hlt] at hfinite
    cases hfinite

theorem signedDecimal_zero (hdigits : digits ≤ mostPlaces) (x : Double) :
    signedDecimal digits 0 x = zero := by
  have hfinite := isFinite_tenPow_iff.2 hdigits
  have hzero : (decimal digits 0).isZero = true := by
    rw [decimal]
    change ((ofInt 0).div _ _).isZero = true
    rw [ofInt_zero]
    exact isZero_zero_div hfinite _
  exact if_pos hzero

theorem signedDecimal_eq (hdigits : digits ≤ mostPlaces)
    (hpow : tenPow digits = .finite false b hb) (hpos : 0 < b) (hm : 0 < m) (h : m ≤ 2 ^ 52)
    (x : Double) :
    ∃ fits, signedDecimal digits m x = .finite x.isNegative (stepUnits b m) fits := by
  obtain ⟨fits, heq⟩ := decimal_eq hdigits hpow (show m ≤ 2 ^ 53 by omega)
  have hne : ¬ (finite false (stepUnits b m) fits).isZero = true := by
    simpa [isZero] using Nat.ne_of_gt (stepUnits_pos hb hpos hm h)
  refine ⟨fits, ?_⟩
  rw [signedDecimal, heq, if_neg hne]
  rfl

theorem signedDecimal_congr {x y : Double} (h : x.isNegative = y.isNegative) (digits m : Nat) :
    signedDecimal digits m x = signedDecimal digits m y := by
  rw [signedDecimal, signedDecimal, copySign, copySign, h]

theorem sameNumber_eq_false {negative : Bool} {k l : Nat} {hk : Fits k} {hl : Fits l}
    (h : k ≠ l) : (finite negative k hk).sameNumber (.finite negative l hl) = false := by
  change (signedUnits negative k == signedUnits negative l) = false
  rw [beq_eq_false_iff_ne]
  intro hsame
  have habs := congrArg Int.natAbs hsame
  rw [natAbs_signedUnits, natAbs_signedUnits] at habs
  exact h habs

theorem drifts_of_half (hdigits : digits ≤ mostPlaces) (hpow : tenPow digits = .finite false b hb)
    (hpos : 0 < b) (hlow : 2 ^ 51 < m) (hhigh : m < 2 ^ 52) {y : Double}
    (hself : y = signedDecimal digits m y) {k : Nat} {fits : Fits k}
    (hscaled : y.abs.mul (tenPow digits) = .finite false k fits) (hlt : k < 2 ^ 52 * unitsPerOne)
    (hhalf : 2 * k = (2 * m + 1) * unitsPerOne) : Drifts digits m y where
  low := hlow
  high := hhigh
  steps := hself
  scaled := by
    rw [hscaled, ← hhalf, Nat.mul_comm 2]
    exact (ofRatio_of_fits fits Nat.two_pos false).symm
  rounded := roundAt_eq hdigits hscaled hlt (roundsToWhole_of_half hlow hhalf)
  moved := by
    obtain ⟨_, hnext⟩ := signedDecimal_eq hdigits hpow hpos (Nat.succ_pos m) hhigh y
    obtain ⟨_, hcurrent⟩ := signedDecimal_eq hdigits hpow hpos (show 0 < m by omega) hhigh.le y
    rw [← hself] at hcurrent
    rw [hnext, hcurrent]
    exact sameNumber_eq_false (Nat.ne_of_gt (stepUnits_lt hb hpos hhigh))

theorem roundAt_signedDecimal (hdigits : digits ≤ mostPlaces) (h : m ≤ 2 ^ 52) (x : Double) :
    (signedDecimal digits m x).roundAt digits = .ok (signedDecimal digits m x) ∨
      Drifts digits m (signedDecimal digits m x) := by
  obtain ⟨b, hb, hpow, hone⟩ := tenPow_eq hdigits
  have hpos : 0 < b := Nat.lt_of_lt_of_le unitsPerOne_pos hone
  rcases Nat.eq_zero_or_pos m with rfl | hm
  · left
    rw [signedDecimal_zero hdigits, roundAt_zero]
  obtain ⟨fits, hy⟩ := signedDecimal_eq hdigits hpow hpos hm h x
  have hself : signedDecimal digits m x = signedDecimal digits m (signedDecimal digits m x) :=
    signedDecimal_congr (by rw [hy]; rfl) digits m
  generalize signedDecimal digits m x = y at hy hself ⊢
  by_cases hlarge : (y.abs.mul (tenPow digits)).magnitudeAtLeast wholeFrom = true
  · exact .inl (roundAt_of_large hlarge)
  obtain ⟨k, hk, hscaled, hlt⟩ := exists_scaled hdigits (by rw [hy]; rfl) hlarge
  obtain rfl : nearestUnits (stepUnits b m * b) unitsPerOne = k := by
    have hproduct : y.abs.mul (tenPow digits) = ofRatio false (stepUnits b m * b) unitsPerOne := by
      rw [hy, hpow]
      rfl
    rw [hscaled, ofRatio] at hproduct
    split at hproduct
    · injection hproduct with _ hunits
      exact hunits.symm
    · cases hproduct
  have hround (hn : RoundsToWhole (nearestUnits (stepUnits b m * b) unitsPerOne) m) :
      y.roundAt digits = .ok y :=
    (roundAt_eq hdigits hscaled hlt hn).trans (congrArg Except.ok hself.symm)
  rcases Nat.lt_or_ge (2 ^ 51) m with hlow | hle
  · rcases roundsToWhole_stepUnits_or hb hpos hlow h hlt with hwhole | ⟨hhigh, hhalf⟩
    · exact .inl (hround hwhole)
    · exact .inr (drifts_of_half hdigits hpow hpos hlow hhigh hself hscaled hlt hhalf)
  · exact .inl (hround (roundsToWhole_stepUnits hb hpos hm hle))

end

theorem roundAt_again {x : Double} (hx : x.isFinite = true) (digits : Nat) :
    ∃ y, x.roundAt digits = .ok y ∧ (y.roundAt digits = .ok y ∨ ∃ m, Drifts digits m y ∧
      (x.abs.mul (tenPow digits)).magnitudeAtLeast (2 ^ 51) = true) := by
  by_cases hdigits : digits ≤ mostPlaces
  · by_cases hlarge : (x.abs.mul (tenPow digits)).magnitudeAtLeast wholeFrom = true
    · have hself := roundAt_of_large hlarge
      exact ⟨x, hself, .inl hself⟩
    obtain ⟨k, hk, hscaled, hlt⟩ := exists_scaled hdigits hx hlarge
    obtain ⟨m, hm⟩ := exists_roundsToWhole k
    refine ⟨_, roundAt_eq hdigits hscaled hlt hm, ?_⟩
    refine (roundAt_signedDecimal hdigits (hm.le hlt) x).imp_right fun hdrifts => ⟨m, hdrifts, ?_⟩
    rw [hscaled, magnitudeAtLeast_finite]
    exact hm.lt_of_lt hdrifts.low
  · have hself (z : Double) : z.roundAt digits = .ok z := if_pos (Nat.not_le.1 hdigits)
    exact ⟨x, hself x, .inl (hself x)⟩

theorem isFinite_of_roundAt {x y : Double} {digits : Nat} (hx : x.isFinite = true)
    (h : x.roundAt digits = .ok y) : y.isFinite = true := by
  obtain ⟨y', hy', hfinite⟩ := exists_roundAt digits hx
  rw [h] at hy'
  exact Except.ok.inj hy' ▸ hfinite

theorem sameNumber_self {x : Double} (h : x.isFinite = true) : x.sameNumber x = true := by
  obtain ⟨negative, units, fits, rfl⟩ := exists_of_isFinite h
  exact beq_self_eq_true _

theorem Drifts.isZero_eq_false {digits m : Nat} {y : Double} (h : Drifts digits m y) :
    y.isZero = false := by
  rw [← Bool.not_eq_true]
  intro hzero
  have hrounded := h.rounded
  have hmoved := h.moved
  cases y with
  | finite negative units fits =>
    obtain rfl : units = 0 := by simpa [isZero] using hzero
    rw [show finite negative 0 fits = zeroOf negative from rfl] at hrounded hmoved
    rw [roundAt_zeroOf] at hrounded
    rw [← Except.ok.inj hrounded] at hmoved
    split at hmoved <;> cases negative <;> cases hmoved
  | _ => cases hzero

theorem add_comm (x y : Double) : x.add y = y.add x := by
  cases x <;> cases y <;> simp only [add]
  case infinity.infinity s t => cases s <;> cases t <;> rfl
  case finite.finite s a _ t b _ => rw [Int.add_comm, Bool.and_comm]

end Double

def answerTree : Tree :=
  ⟨.add, .word answerName (.word ['0'] .empty)⟩

theorem evaluateLine_answer {rules : Rules} (hdepth : 1 ≤ rules.maxDepth)
    (hlength : 7 ≤ rules.maxLength) {memory : Memory} (hanswer : memory.answer.isFinite = true)
    {y : Double} (hround : memory.answer.dropZeroSign.roundAt rules.digits = .ok y) :
    ∃ after, evaluateLine rules memory "+ ans 0".toList = .ok (y, after) := by
  have hwell : answerTree.WellFormed := by decide
  have hspaced : Text.Spaced answerTree.words (Text.pointForComma "+ ans 0".toList) :=
    Text.lexemes_eq_iff.1 (by decide)
  have hzero : operandValue? memory.answer ['0'] = some .zero :=
    operandValue?_number (by decide) (by decide +kernel)
  have hsum : Operator.add.compute memory.answer (.double .zero) =
      .ok memory.answer.dropZeroSign :=
    congrArg Except.ok ((Double.add_comm _ _).trans (Double.zero_add hanswer))
  have hreduce := Pending.reduce_pair rules (by decide) hsum
    (Double.isFinite_dropZeroSign hanswer) hround memory
  have htree : answerTree.evaluate rules memory = Pending.reduce rules memory
      ⟨.add, [.zero, memory.answer]⟩ := by
    rw [Tree.evaluate, if_neg (by omega)]
    simp only [answerTree, Operands.collect, operandValue?_answerName, hzero]
    rfl
  rw [hwell.grammatical.evaluateLine_eq hspaced hlength]
  exact ⟨_, htree.trans hreduce⟩

theorem evaluateLine_again {rules : Rules} (hlength : 7 ≤ rules.maxLength)
    {memory after start : Memory} {line : Text} {x : Double}
    (h : evaluateLine rules memory line = .ok (x, after)) (hstart : start.answer = x) :
    ∃ y again, evaluateLine rules start "+ ans 0".toList = .ok (y, again) ∧
      (y.sameNumber x = true ∨
        ∃ m, Double.Drifts rules.digits m x ∧ y = Double.signedDecimal rules.digits (m + 1) x) := by
  obtain ⟨hdepth, before, r, hcompletes, hresult⟩ := exists_completes_of_evaluateLine h
  obtain ⟨w, requests, -, hw, hround, -⟩ := hcompletes
  rw [hresult] at hround
  obtain ⟨x', hx', hagain⟩ := Double.roundAt_again hw rules.digits
  obtain rfl := Except.ok.inj (hround.symm.trans hx')
  have hx := Double.isFinite_of_roundAt hw hround
  obtain ⟨y, hy, -⟩ := Double.exists_roundAt rules.digits (Double.isFinite_dropZeroSign hx)
  subst hstart
  obtain ⟨again, hline⟩ := evaluateLine_answer hdepth hlength hx hy
  refine ⟨y, again, hline, ?_⟩
  rcases hagain with hself | ⟨m, hdrifts, -⟩
  · left
    exact (Double.sameNumber_iff_roundsToItself hx hy).2 ⟨_, hself, Double.sameNumber_self hx⟩
  · right
    have hnonzero : start.answer.dropZeroSign = start.answer :=
      if_neg (by simp [hdrifts.isZero_eq_false])
    rw [hnonzero, hdrifts.rounded] at hy
    exact ⟨m, hdrifts, (Except.ok.inj hy).symm⟩

theorem roundTo_again (standard : Int) {v : Double} (hv : v.isFinite = true) {digits : Operand}
    (hdigits : digits ≠ .double .nan) :
    ∃ y, roundTo standard (.double v) digits = .ok y ∧
      (roundTo standard (.double y) digits = .ok y ∨
        ∃ n m, places standard digits = .ok n ∧ Double.Drifts n m y ∧
          (v.abs.mul (Double.tenPow n)).magnitudeAtLeast (2 ^ 51) = true ∧
          roundTo standard (.double y) digits = .ok (Double.signedDecimal n (m + 1) y)) := by
  rcases Double.places_cases standard hdigits with ⟨n, hn⟩ | hinfinite
  · obtain ⟨y, hround, hagain⟩ := Double.roundAt_again hv n
    rw [Double.roundTo_of_places hn]
    refine ⟨y, hround, ?_⟩
    rw [Double.roundTo_of_places hn]
    rcases hagain with hsame | ⟨m, hdrifts, hlarge⟩
    · exact .inl hsame
    · exact .inr ⟨n, m, hn, hdrifts, hlarge, hdrifts.rounded⟩
  · have hself (z : Double) : roundTo standard (.double z) digits = .ok z := by
      rw [roundTo, hinfinite]
      rfl
    exact ⟨v, hself v, .inl (hself v)⟩

namespace Session

/-- Rounding again to the same places changes nothing, unless what has been rounded drifts: it is a
number of steps of the last place that is half a step more when it is scaled up again. For that the
scaled magnitude has to be at least `2 ^ 51`. So after a line that evaluates, adding zero to the
answer at the same precision leaves the answer as it was, unless it drifts. -/
theorem rounded_again (settings : Settings) (source : Source) (s : Session)
    (traced : Bool) (precision maxDepth : Option Int) :
    let standard := settings.defaultPrecision
    let evaluate := fun (s : Session) line =>
      s.outcome settings source line traced (.ofPrecision precision) maxDepth
    (∀ (v : Double) (digits : Operand), v.isFinite = true → digits ≠ .double .nan →
      ∃ y, roundTo standard (.double v) digits = .ok y ∧
        (roundTo standard (.double y) digits = .ok y ∨
          ∃ n m, places standard digits = .ok n ∧ Double.Drifts n m y ∧
            (v.abs.mul (Double.tenPow n)).magnitudeAtLeast (2 ^ 51) = true ∧
            roundTo standard (.double y) digits = .ok (Double.signedDecimal n (m + 1) y))) ∧
    ∀ (line : Text) (x : Double) (after : Memory), 7 ≤ settings.maxInputLength →
      evaluate s line = .ok (x, after) →
        let digits := (s.rules settings source precision maxDepth).digits
        ∃ y again, evaluate (s.adopt after) "+ ans 0".toList = .ok (y, again) ∧
          (s.adopt after).answer.value = x ∧ ((s.adopt after).adopt again).answer.value = y ∧
          (y.sameNumber x = true ∨
            ∃ m, Double.Drifts digits m x ∧ y = Double.signedDecimal digits (m + 1) x) := by
  intro standard evaluate
  constructor
  · intro v digits hv hdigits
    exact roundTo_again standard hv hdigits
  · intro line x after hlength h digits
    replace h := (outcome_eq ..).symm.trans h
    have hvalue := answer_of_evaluateLine_ok h
    have hanswer : ((s.adopt after).memory traced).answer = x := hvalue
    obtain ⟨y, again, hline, hagain⟩ := evaluateLine_again hlength h hanswer
    exact ⟨y, again, (outcome_eq ..).trans hline, hvalue, answer_of_evaluateLine_ok hline, hagain⟩

theorem rounded_again_usual :
    let v := Double.ofDecimal false 4400000000000021 (-3)
    let evaluate := fun (s : Session) line =>
      s.outcome .usual .lowest line false (.ofPrecision none) none
    let line := "+ 4400000000000.021 0".toList
    (v.isFinite = true ∧ Operand.integer 3 ≠ .double .nan ∧ 7 ≤ Settings.usual.maxInputLength) ∧
      (∃ y, roundTo 3 (.double v) (.integer 3) = .ok y ∧
        (roundTo 3 (.double y) (.integer 3) = .ok y ∨
          ∃ n m, places 3 (.integer 3) = .ok n ∧ Double.Drifts n m y ∧
            (v.abs.mul (Double.tenPow n)).magnitudeAtLeast (2 ^ 51) = true ∧
            roundTo 3 (.double y) (.integer 3) = .ok (Double.signedDecimal n (m + 1) y))) ∧
      ∃ x after y again, evaluate (fresh .usual) line = .ok (x, after) ∧
        evaluate ((fresh .usual).adopt after) "+ ans 0".toList = .ok (y, again) ∧
        (y.sameNumber x = true ∨
          ∃ m, Double.Drifts 3 m x ∧ y = Double.signedDecimal 3 (m + 1) x) := by
  intro v evaluate line
  have hv : v.isFinite = true := by decide +kernel
  have hresult : Outcome.result (evaluate (fresh .usual) line) =
      .ok (.ofDecimal false 4400000000000022 (-3)) := by
    decide +kernel
  obtain ⟨after, hfirst⟩ := Outcome.result_eq_ok hresult
  obtain ⟨hrounded, hevaluated⟩ := rounded_again .usual .lowest (fresh .usual) false none none
  obtain ⟨y, again, hagain, -, -, hvalue⟩ := hevaluated line _ after (by decide) hfirst
  exact ⟨⟨hv, nofun, by decide⟩, hrounded v (.integer 3) hv nofun, _, after, y, again, hfirst,
    hagain, hvalue⟩

theorem rounded_again_moves :
    let v := Double.ofDecimal false 4400000000000021 (-3)
    let once := Double.ofDecimal false 4400000000000022 (-3)
    let twice := Double.ofDecimal false 4400000000000023 (-3)
    let replies := (fresh .usual).performAll .usual .lowest
      [.evaluate "+ 4400000000000.021 0".toList false .absent none,
        .evaluate "+ ans 0".toList false .absent none]
    v.isFinite = true ∧ roundTo 3 (.double v) (.integer 3) = .ok once ∧
      roundTo 3 (.double once) (.integer 3) = .ok twice ∧ twice.sameNumber once = false ∧
      replies.map Prod.fst = [.ok (.number once), .ok (.number twice)] := by
  decide +kernel

end Session

end PolishCalc
