import PolishCalc.Proofs.Number.ReadBack

namespace PolishCalc

def NearestWhole (units m : Nat) : Prop :=
  2 * (m * unitsPerOne) ≤ 2 * units + unitsPerOne ∧
    2 * units + unitsPerOne < 2 * ((m + 1) * unitsPerOne)

instance (units m : Nat) : Decidable (NearestWhole units m) :=
  inferInstanceAs (Decidable (_ ∧ _))

@[irreducible]
def belowHalf : Nat := (2 ^ 53 - 1) * 2 ^ (unitExponent - 54)

def RoundsToWhole (units m : Nat) : Prop :=
  (units ≠ belowHalf → NearestWhole units m) ∧ (units = belowHalf → m = 1)

theorem exists_nearestWhole (units : Nat) : ∃ m, NearestWhole units m := by
  have hpos : 0 < 2 * unitsPerOne := Nat.mul_pos (by decide) unitsPerOne_pos
  refine ⟨(2 * units + unitsPerOne) / (2 * unitsPerOne), ?_, ?_⟩
  · calc 2 * ((2 * units + unitsPerOne) / (2 * unitsPerOne) * unitsPerOne)
        = (2 * units + unitsPerOne) / (2 * unitsPerOne) * (2 * unitsPerOne) := by ring
      _ ≤ 2 * units + unitsPerOne := Nat.div_mul_le_self _ _
  · calc 2 * units + unitsPerOne
        < ((2 * units + unitsPerOne) / (2 * unitsPerOne) + 1) * (2 * unitsPerOne) :=
          Nat.lt_mul_of_div_lt (Nat.lt_succ_self _) hpos
      _ = 2 * (((2 * units + unitsPerOne) / (2 * unitsPerOne) + 1) * unitsPerOne) := by ring

theorem exists_roundsToWhole (units : Nat) : ∃ m, RoundsToWhole units m := by
  by_cases h : units = belowHalf
  · exact ⟨1, fun hne => absurd h hne, fun _ => rfl⟩
  · obtain ⟨m, hm⟩ := exists_nearestWhole units
    exact ⟨m, fun _ => hm, fun heq => absurd heq h⟩

theorem nearestUnits_bounds {den : Nat} (h : 0 < den) (num : Nat) :
    2 * num ≤ 2 * (nearestUnits num den * den) + den * spacing (num / den) ∧
      2 * (nearestUnits num den * den) ≤ 2 * num + den * spacing (num / den) := by
  obtain ⟨hlow, hhigh⟩ := nearest_bounds (Nat.mul_pos h (spacing_pos (num / den))) num
  rw [nearestUnits]
  generalize nearest num (den * spacing (num / den)) = q at hlow hhigh ⊢
  generalize spacing (num / den) = s at hlow hhigh ⊢
  constructor
  · calc 2 * num
        ≤ den * s * (2 * q + 1) := hlow
      _ = 2 * (q * s * den) + den * s := by ring
  · calc 2 * (q * s * den)
        = den * s * (2 * q) := by ring
      _ ≤ 2 * num + den * s := hhigh

theorem nearestUnits_le_of_fits {num den k : Nat} (hk : Fits k) (hden : 0 < den)
    (h : num ≤ k * den) : nearestUnits num den ≤ k :=
  (nearestUnits_mono_left h).trans (nearestUnits_of_fits hk hden).le

theorem le_nearestUnits_of_fits {num den k : Nat} (hk : Fits k) (hden : 0 < den)
    (h : k * den ≤ num) : k ≤ nearestUnits num den :=
  (nearestUnits_of_fits hk hden).ge.trans (nearestUnits_mono_left h)

theorem fits_mul_pow {m e : Nat} (hm : m ≤ 2 ^ 53) (he : e + 53 < unitExponent + 1024) :
    Fits (m * 2 ^ e) := by
  refine ⟨mul_spacing_mod hm, ?_⟩
  calc m * 2 ^ e
      ≤ 2 ^ 53 * 2 ^ e := Nat.mul_le_mul_right _ hm
    _ = 2 ^ (e + 53) := by rw [← Nat.pow_add, Nat.add_comm]
    _ < overflowUnits := by
        rw [overflowUnits_eq]
        exact Nat.pow_lt_pow_right (by decide) he

theorem Fits.pow_dvd {k e : Nat} (h : Fits k) (hle : 2 ^ (e + 52) ≤ k) : 2 ^ e ∣ k := by
  have hk : k ≠ 0 := Nat.ne_of_gt (Nat.lt_of_lt_of_le (Nat.two_pow_pos _) hle)
  have hlog : e + 52 ≤ k.log2 := (Nat.le_log2 hk).2 hle
  exact Nat.dvd_trans (Nat.pow_dvd_pow 2 (by omega)) h.dvd

theorem pow_log2_le {n e : Nat} (h : 2 ^ e ≤ n) : e ≤ n.log2 :=
  (Nat.le_log2 (Nat.ne_of_gt (Nat.lt_of_lt_of_le (Nat.two_pow_pos e) h))).2 h

theorem log2_le_of_lt {n e : Nat} (h : n < 2 ^ (e + 1)) : n.log2 ≤ e := by
  by_cases hn : n = 0
  · simp [hn]
  · have := (Nat.log2_lt hn).2 h
    omega

theorem add_le_of_dvd_of_lt {a b d : Nat} (ha : d ∣ a) (hb : d ∣ b) (h : a < b) : a + d ≤ b := by
  have := Nat.le_of_dvd (by omega) (Nat.dvd_sub hb ha)
  omega

theorem belowHalf_eq : belowHalf = (2 ^ 53 - 1) * 2 ^ (unitExponent - 54) := by
  unfold belowHalf
  generalize unitExponent - 54 = e
  rfl

theorem fits_belowHalf : Fits belowHalf := by
  rw [belowHalf_eq]
  exact fits_mul_pow (by decide) (by decide)

structure HalfAt (e : Nat) : Prop where
  large : 53 ≤ e
  one : unitsPerOne = 2 ^ (e + 1)
  below : belowHalf + 2 ^ (e - 53) = 2 ^ e
  carries : nearestUnits (belowHalf + 2 ^ e) 1 = unitsPerOne

theorem halfAt : HalfAt (unitExponent - 1) where
  large := by decide
  one := by rw [unitsPerOne_eq, Nat.sub_add_cancel (by decide)]
  below := by
    have hexponent : unitExponent - 1 = 53 + (unitExponent - 54) := by decide
    rw [belowHalf_eq, hexponent, Nat.pow_add, Nat.add_sub_cancel_left]
    generalize 2 ^ (unitExponent - 54) = gap
    omega
  carries := by decide +kernel

section

variable {e k m : Nat}

theorem spacing_sum_le (he : HalfAt e) (hhigh : k < 2 ^ 52 * unitsPerOne) :
    spacing (k + 2 ^ e) ≤ 2 ^ (e + 1) := by
  have hone := he.one
  have hpow : 2 ^ (e + 1 + 52 + 1) = 2 ^ 53 * 2 ^ (e + 1) := by ring
  have hhalf : 2 ^ (e + 1) = 2 * 2 ^ e := Nat.pow_succ'
  have hlog : (k + 2 ^ e).log2 ≤ e + 1 + 52 := log2_le_of_lt (by omega)
  rw [spacing_eq]
  exact Nat.pow_le_pow_right (by decide) (by omega)

theorem sum_add_spacing_lt (he : HalfAt e) (hk : Fits k) (hlow : 2 ^ e ≤ k)
    (hhigh : k < 2 ^ 52 * unitsPerOne) (habove : k + 2 ^ e < (m + 1) * unitsPerOne) :
    2 * (k + 2 ^ e) + spacing (k + 2 ^ e) < 2 * ((m + 1) * unitsPerOne) := by
  have hone := he.one
  have hsum := spacing_sum_le he hhigh
  have hhalf : 2 ^ (e + 1) = 2 * 2 ^ e := Nat.pow_succ'
  have hlog : e ≤ k.log2 := pow_log2_le hlow
  have hlog' : k.log2 ≤ e + 52 := by
    refine log2_le_of_lt ?_
    rw [show e + 52 + 1 = 52 + (e + 1) by omega, Nat.pow_add, ← hone]
    exact hhigh
  have hnext : k < 2 ^ (k.log2 + 1) := Nat.lt_log2_self
  rcases Nat.lt_or_ge k.log2 (k + 2 ^ e).log2 with hcarry | hsame
  -- the sum has reached the next power of two, which is whole
  · have hwhole : unitsPerOne ∣ 2 ^ (k.log2 + 1) := by
      rw [hone]
      exact Nat.pow_dvd_pow 2 (by omega)
    have hreached : 2 ^ (k.log2 + 1) ≤ k + 2 ^ e :=
      (Nat.pow_le_pow_right (by decide) hcarry).trans (Nat.log2_self_le (by omega))
    have hgap := add_le_of_dvd_of_lt hwhole (Nat.dvd_mul_left unitsPerOne (m + 1)) (by omega)
    omega
  · have hspacing : spacing (k + 2 ^ e) = spacing k := by
      rw [spacing_eq, spacing_eq, Nat.le_antisymm hsame (log2_mono (Nat.le_add_right k _))]
    have hdvd : spacing k ∣ 2 ^ e := Nat.pow_dvd_pow 2 (by omega)
    have hdvd' : spacing k ∣ unitsPerOne := by
      rw [hone]
      exact Nat.pow_dvd_pow 2 (by omega)
    have hgap := add_le_of_dvd_of_lt (Nat.dvd_add hk.dvd hdvd)
      (Nat.dvd_mul_left_of_dvd hdvd' (m + 1)) habove
    have hpos := spacing_pos k
    omega

theorem sum_add_spacing_lt_of_lt (he : HalfAt e) (hk : Fits k) (hlow : k < 2 ^ e)
    (hne : k ≠ belowHalf) : 2 * (k + 2 ^ e) + spacing (k + 2 ^ e) < 2 * unitsPerOne := by
  obtain ⟨hlarge, hone, hbelow, -⟩ := he
  obtain ⟨d, rfl⟩ := Nat.exists_eq_add_of_le' hlarge
  rw [Nat.add_sub_cancel] at hbelow
  have hpow : 2 ^ (d + 53) = 2 ^ 53 * 2 ^ d := by rw [Nat.pow_add, Nat.mul_comm]
  have hpow' : 2 ^ (d + 52) = 2 ^ 52 * 2 ^ d := by rw [Nat.pow_add, Nat.mul_comm]
  have hhalf : 2 ^ (d + 53 + 1) = 2 * 2 ^ (d + 53) := Nat.pow_succ'
  have hlog : (k + 2 ^ (d + 53)).log2 ≤ d + 53 := log2_le_of_lt (by omega)
  have hspacing : spacing (k + 2 ^ (d + 53)) ≤ 2 ^ (d + 1) := by
    rw [spacing_eq]
    exact Nat.pow_le_pow_right (by decide) (by omega)
  have hdouble : 2 ^ (d + 1) = 2 * 2 ^ d := Nat.pow_succ'
  by_contra hnot
  have hdvd : 2 ^ d ∣ k := hk.pow_dvd (by omega)
  have hdvd' : 2 ^ d ∣ belowHalf := by
    refine (Nat.dvd_add_left (Nat.dvd_refl _)).1 ?_
    rw [hbelow, hpow]
    exact Nat.dvd_mul_left _ _
  rcases Nat.lt_or_gt_of_ne hne with hlt | hgt
  · have := add_le_of_dvd_of_lt hdvd hdvd' hlt
    omega
  · have := add_le_of_dvd_of_lt hdvd' hdvd hgt
    omega

theorem wholePart_add_half (he : HalfAt e) (hk : Fits k) (hhigh : k < 2 ^ 52 * unitsPerOne)
    (hm : RoundsToWhole k m) : nearestUnits (k + 2 ^ e) 1 / unitsPerOne = m := by
  by_cases hne : k = belowHalf
  · rw [hne, he.carries, Nat.div_self unitsPerOne_pos, hm.2 hne]
  obtain ⟨hlow, habove⟩ := hm.1 hne
  have hhalf : unitsPerOne = 2 * 2 ^ e := he.one.trans Nat.pow_succ'
  have hmle : m ≤ 2 ^ 53 := by
    by_contra hlarge
    have := Nat.mul_le_mul_right unitsPerOne (Nat.not_le.1 hlarge)
    omega
  have hup : nearestUnits (k + 2 ^ e) 1 < (m + 1) * unitsPerOne := by
    have herror := (nearestUnits_bounds Nat.one_pos (k + 2 ^ e)).2
    rw [Nat.div_one, Nat.one_mul, Nat.mul_one] at herror
    have hgap : 2 * (k + 2 ^ e) + spacing (k + 2 ^ e) < 2 * ((m + 1) * unitsPerOne) := by
      rcases Nat.lt_or_ge k (2 ^ e) with hsmall | hlarge
      · have hsum := sum_add_spacing_lt_of_lt he hk hsmall hne
        have hone := Nat.le_mul_of_pos_left unitsPerOne (show 0 < m + 1 by omega)
        omega
      · exact sum_add_spacing_lt he hk hlarge hhigh (by omega)
    omega
  have hdown : m * unitsPerOne ≤ nearestUnits (k + 2 ^ e) 1 :=
    le_nearestUnits_of_fits (Double.fits_whole hmle) Nat.one_pos (by omega)
  exact Nat.div_eq_of_lt_le hdown hup

end

theorem RoundsToWhole.le {k m : Nat} (h : RoundsToWhole k m) (hhigh : k < 2 ^ 52 * unitsPerOne) :
    m ≤ 2 ^ 52 := by
  by_cases hne : k = belowHalf
  · rw [h.2 hne]
    decide
  · have hlow := (h.1 hne).1
    by_contra hlarge
    have := Nat.mul_le_mul_right unitsPerOne (Nat.not_le.1 hlarge)
    omega

namespace Double

theorem truncate_add_half {k m : Nat} {fits : Fits k} (hhigh : k < 2 ^ 52 * unitsPerOne)
    (hm : RoundsToWhole k m) : ((finite false k fits).add half).truncate = .ok m := by
  have hwhole := wholePart_add_half halfAt fits hhigh hm
  have hlt : nearestUnits (k + 2 ^ (unitExponent - 1)) 1 < overflowUnits := by
    have hmle : m + 1 ≤ 2 ^ 53 := by
      have := hm.le hhigh
      omega
    calc nearestUnits (k + 2 ^ (unitExponent - 1)) 1
        < (m + 1) * unitsPerOne :=
          Nat.lt_mul_of_div_lt (by omega) unitsPerOne_pos
      _ < overflowUnits := (fits_whole hmle).2
  obtain ⟨hfits, heq⟩ := ofRatio_of_nearestUnits_lt hlt false
  rw [half_eq, add_positive fits _ (Nat.two_pow_pos _), ofUnits, heq, truncate, hwhole]
  rfl

def decimal (digits m : Nat) : Double :=
  (ofInt m).div (tenPow digits) (isZero_tenPow digits)

def signedDecimal (digits m : Nat) (x : Double) : Double :=
  if (decimal digits m).isZero then zero else (decimal digits m).copySign x

theorem roundAt_eq {digits : Nat} (hdigits : digits ≤ mostPlaces) {x : Double} {k : Nat}
    {fits : Fits k} (hscaled : x.abs.mul (tenPow digits) = .finite false k fits)
    (hhigh : k < 2 ^ 52 * unitsPerOne) {m : Nat} (hm : RoundsToWhole k m) :
    x.roundAt digits = .ok (signedDecimal digits m x) := by
  have hsmall : ¬ (finite false k fits).magnitudeAtLeast wholeFrom = true := by
    rw [magnitudeAtLeast_finite, wholeFrom_eq]
    exact Nat.not_le.2 hhigh
  rw [roundAt, if_neg (Nat.not_lt.2 hdigits)]
  dsimp only
  rw [hscaled, if_neg hsmall, truncate_add_half hhigh hm]
  rfl

theorem roundAt_of_large {digits : Nat} {x : Double}
    (h : (x.abs.mul (tenPow digits)).magnitudeAtLeast wholeFrom = true) :
    x.roundAt digits = .ok x := by
  rw [roundAt]
  split
  · rfl
  · exact if_pos h

theorem isFinite_tenPow_iff {digits : Nat} :
    (tenPow digits).isFinite = true ↔ digits ≤ mostPlaces := by
  constructor
  · intro h
    by_contra hlarge
    have hspecial : ¬ (digits = 23 ∨ digits = 210) := by
      unfold mostPlaces at hlarge
      omega
    have hoverflow : overflowUnits ≤ 10 ^ digits * unitsPerOne / 1 := by
      have hfirst : overflowUnits ≤ 10 ^ (mostPlaces + 1) * unitsPerOne := by decide +kernel
      rw [Nat.div_one]
      exact hfirst.trans (Nat.mul_le_mul_right _ (Nat.pow_le_pow_right (by decide) (by omega)))
    have hinfinite : tenPow digits = .infinity false := by
      rw [tenPow, if_neg hspecial]
      exact ofRatio_of_overflow hoverflow false
    rw [hinfinite] at h
    cases h
  · intro h
    obtain ⟨k, fits, heq, -⟩ := tenPow_eq h
    rw [heq]
    rfl

theorem roundTo_of_places {standard : Int} {digits : Operand} {n : Nat}
    (h : places standard digits = .ok n) (v : Double) :
    roundTo standard (.double v) digits = v.roundAt n := by
  rw [roundTo, h]
  dsimp only
  split
  · rename_i hlarge
    rw [roundAt, if_pos hlarge]
    rfl
  · rfl

theorem places_cases (standard : Int) {digits : Operand} (h : digits ≠ .double .nan) :
    (∃ n, places standard digits = .ok n) ∨ places standard digits = .error .infinityToInteger := by
  rcases digits with (_ | negative | ⟨negative, units, fits⟩) | n | _
  · exact absurd rfl h
  · exact .inr rfl
  · exact .inl ⟨_, rfl⟩
  · exact .inl ⟨_, rfl⟩
  · exact .inl ⟨_, rfl⟩

/-- Rounding to decimal places scales the magnitude, takes the whole number that is nearest to it,
halves going up, and scales back, with the sign of the number unless zero is left. It does so
whenever the power of ten and the scaled magnitude are in range, and gives the number itself
otherwise. The one scaled magnitude that is not taken to the nearest whole number is the greatest
one below a half, which is taken to one. -/
theorem roundTo_nearest (standard : Int) {v : Double} (hv : v.isFinite = true) {digits : Operand}
    (hdigits : digits ≠ .double .nan) :
    (∀ n, places standard digits = .ok n → (tenPow n).isFinite = true →
      (v.abs.mul (tenPow n)).magnitudeAtLeast wholeFrom = false →
        ∃ units fits m, v.abs.mul (tenPow n) = .finite false units fits ∧
          RoundsToWhole units m ∧
          roundTo standard (.double v) digits = .ok (signedDecimal n m v)) ∧
    ((∀ n, places standard digits = .ok n → (tenPow n).isFinite = true →
      (v.abs.mul (tenPow n)).magnitudeAtLeast wholeFrom = true) →
        roundTo standard (.double v) digits = .ok v) := by
  constructor
  · intro n hn hpow hsmall
    have hle := isFinite_tenPow_iff.1 hpow
    obtain ⟨units, fits, hscaled, hlt⟩ := exists_scaled hle hv (by simp [hsmall])
    obtain ⟨m, hm⟩ := exists_roundsToWhole units
    refine ⟨units, fits, m, hscaled, hm, ?_⟩
    rw [roundTo_of_places hn, roundAt_eq hle hscaled hlt hm]
  · intro hlarge
    rcases places_cases standard hdigits with ⟨n, hn⟩ | hinfinite
    · rw [roundTo_of_places hn]
      by_cases hpow : (tenPow n).isFinite = true
      · exact roundAt_of_large (hlarge n hn hpow)
      · exact if_pos (Nat.not_le.1 (mt isFinite_tenPow_iff.2 hpow))
    · rw [roundTo, hinfinite]
      rfl

theorem roundTo_nearest_tie :
    let v := ofDecimal true 125 (-3)
    v.isFinite = true ∧ Operand.integer 2 ≠ .double .nan ∧
      places 3 (.integer 2) = .ok 2 ∧ (tenPow 2).isFinite = true ∧
      (v.abs.mul (tenPow 2)).magnitudeAtLeast wholeFrom = false ∧
      (∃ units fits m, v.abs.mul (tenPow 2) = .finite false units fits ∧ RoundsToWhole units m ∧
        roundTo 3 (.double v) (.integer 2) = .ok (signedDecimal 2 m v)) ∧
      roundTo 3 (.double v) (.integer 2) = .ok (ofDecimal true 13 (-2)) := by
  intro v
  have hfinite : v.isFinite = true := by decide +kernel
  have hpow : (tenPow 2).isFinite = true := by decide +kernel
  have hsmall : (v.abs.mul (tenPow 2)).magnitudeAtLeast wholeFrom = false := by decide +kernel
  exact ⟨hfinite, nofun, rfl, hpow, hsmall,
    (roundTo_nearest 3 hfinite (by simp)).1 2 rfl hpow hsmall, by decide +kernel⟩

theorem roundTo_belowHalf :
    let v := ofDecimal false 49999999999999994 (-17)
    (∃ units fits, v.abs.mul (tenPow 0) = .finite false units fits ∧ NearestWhole units 0) ∧
      v.isFinite = true ∧ (tenPow 0).isFinite = true ∧
      (v.abs.mul (tenPow 0)).magnitudeAtLeast wholeFrom = false ∧
      roundTo 3 (.double v) (.integer 0) = .ok one ∧ one ≠ signedDecimal 0 0 v := by
  exact ⟨⟨belowHalf, fits_belowHalf, by decide +kernel⟩, by decide +kernel⟩

end Double

end PolishCalc
