import Mathlib.Algebra.Order.Field.Basic
import Mathlib.Algebra.Order.Field.Rat
import Mathlib.Tactic.FieldSimp
import Mathlib.Tactic.Linarith
import PolishCalc.Proofs.Number.Places

namespace PolishCalc

def Precise (units : Nat) : Prop :=
  spacing units ∣ units

def magnitude (units : Nat) : ℚ :=
  units / unitsPerOne

/-- Of all precise numbers of units, these are nearest to `q`; if others are equally near, the last
significant bit of these is zero. -/
structure NearestUnits (q : ℚ) (units : Nat) : Prop where
  precise : Precise units
  closest : ∀ other, Precise other → |magnitude units - q| ≤ |magnitude other - q|
  even : ∀ other, Precise other → other ≠ units → |magnitude other - q| = |magnitude units - q| →
    2 * spacing units ∣ units

inductive Double.IsNearest (negative : Bool) (q : ℚ) : Double → Prop
  | finite {units : Nat} (fits : Fits units) : NearestUnits q units →
      IsNearest negative q (.finite negative units fits)
  | infinite {units : Nat} : overflowUnits ≤ units → NearestUnits q units →
      IsNearest negative q (.infinity negative)

theorem Precise.add_spacing_le {a b : Nat} (ha : Precise a) (hb : Precise b) (h : a < b) :
    a + spacing a ≤ b := by
  have hdvd : spacing a ∣ b := (spacing_dvd_spacing h.le).trans hb
  have hle := Nat.le_of_dvd (by omega) (Nat.dvd_sub hdvd ha)
  omega

theorem Precise.add_spacing {a : Nat} (ha : Precise a) : Precise (a + spacing a) := by
  have hle : a + spacing a ≤ 2 ^ (a.log2 + 1) := PolishCalc.add_spacing_le ha
  rcases Nat.eq_or_lt_of_le hle with heq | hlt
  · rw [Precise, heq]
    exact spacing_dvd_pow (by rw [Nat.log2_two_pow]; omega)
  · have hlog : (a + spacing a).log2 ≤ a.log2 := log2_le_of_lt hlt
    have hspacing : spacing (a + spacing a) ∣ spacing a :=
      Nat.pow_dvd_pow 2 (Nat.sub_le_sub_right hlog 52)
    exact hspacing.trans (Nat.dvd_add ha (Nat.dvd_refl _))

theorem Precise.le_or_le {n other : Nat} (hother : Precise other) :
    other ≤ n / spacing n * spacing n ∨ n / spacing n * spacing n + spacing n ≤ other := by
  by_contra hbetween
  rw [not_or, Nat.not_le, Nat.not_le] at hbetween
  obtain ⟨hlow, hhigh⟩ := hbetween
  have hpow : 2 ^ n.log2 ≤ n / spacing n * spacing n ∨ n = 0 := by
    rcases Nat.eq_zero_or_pos n with hn | hn
    · exact .inr hn
    · obtain ⟨k, hk⟩ : spacing n ∣ 2 ^ n.log2 := spacing_dvd_pow (by omega)
      refine .inl ?_
      rw [hk, Nat.mul_comm]
      refine Nat.mul_le_mul_right _ ((Nat.le_div_iff_mul_le (spacing_pos n)).2 ?_)
      rw [Nat.mul_comm, ← hk]
      exact Nat.log2_self_le hn.ne'
  have hspacing : spacing n ∣ spacing other := by
    rcases hpow with hpow | rfl
    · have hlog := log2_mono (hpow.trans hlow.le)
      rw [Nat.log2_two_pow] at hlog
      exact Nat.pow_dvd_pow 2 (Nat.sub_le_sub_right hlog 52)
    · exact one_dvd _
  have hdvd : spacing n ∣ other - n / spacing n * spacing n :=
    Nat.dvd_sub (hspacing.trans hother) (Nat.dvd_mul_left _ _)
  have hle := Nat.le_of_dvd (by omega) hdvd
  omega

theorem abs_magnitude_sub (units : Nat) (q : ℚ) :
    |magnitude units - q| = |units - q * unitsPerOne| / unitsPerOne := by
  have hpos : (0 : ℚ) < unitsPerOne := by exact_mod_cast unitsPerOne_pos
  rw [magnitude, div_sub' hpos.ne', abs_div, abs_of_pos hpos, mul_comm]

theorem abs_magnitude_le_iff {a b : Nat} {q : ℚ} :
    |magnitude a - q| ≤ |magnitude b - q| ↔
      |a - q * unitsPerOne| ≤ |b - q * unitsPerOne| := by
  have hpos : (0 : ℚ) < unitsPerOne := by exact_mod_cast unitsPerOne_pos
  rw [abs_magnitude_sub, abs_magnitude_sub, div_le_div_iff_of_pos_right hpos]

theorem NearestUnits.le {q : ℚ} {a b : Nat} (ha : NearestUnits q a) (hb : NearestUnits q b) :
    b ≤ a := by
  by_contra hlt
  rw [Nat.not_le] at hlt
  -- Two nearest numbers lie on both sides of `q` with nothing between them; as neighbours, they
  -- cannot both be even.
  have hequal : |magnitude b - q| = |magnitude a - q| :=
    le_antisymm (hb.closest a ha.precise) (ha.closest b hb.precise)
  have hab : (a : ℚ) < b := by exact_mod_cast hlt
  have hmiddle : b - q * unitsPerOne = q * unitsPerOne - a := by
    have hle := abs_magnitude_le_iff.1 hequal.le
    have hge := abs_magnitude_le_iff.1 hequal.ge
    rcases abs_cases ((a : ℚ) - q * unitsPerOne) with ⟨h, -⟩ | ⟨h, -⟩ <;>
      rcases abs_cases ((b : ℚ) - q * unitsPerOne) with ⟨h', -⟩ | ⟨h', -⟩ <;> linarith
  have hnext : a + spacing a = b := by
    refine le_antisymm (ha.precise.add_spacing_le hb.precise hlt) (Nat.not_lt.1 fun hgap => ?_)
    have hbetween : (a : ℚ) < (a + spacing a : Nat) ∧ ((a + spacing a : Nat) : ℚ) < b :=
      ⟨by exact_mod_cast Nat.lt_add_of_pos_right (spacing_pos a), by exact_mod_cast hgap⟩
    have hnear := abs_magnitude_le_iff.1 (ha.closest _ ha.precise.add_spacing)
    have hcloser : |((a + spacing a : Nat) : ℚ) - q * unitsPerOne| < q * unitsPerOne - a :=
      abs_lt.2 ⟨by linarith, by linarith⟩
    have hself := neg_le_abs ((a : ℚ) - q * unitsPerOne)
    linarith
  have hevenA : 2 * spacing a ∣ a := ha.even b hb.precise hlt.ne' hequal
  have hevenB : 2 * spacing a ∣ b :=
    (Nat.mul_dvd_mul_left 2 (spacing_dvd_spacing hlt.le)).trans
      (hb.even a ha.precise hlt.ne hequal.symm)
  have hdvd : 2 * spacing a ∣ spacing a := (Nat.dvd_add_right hevenA).1 (hnext ▸ hevenB)
  have hle := Nat.le_of_dvd (spacing_pos a) hdvd
  have hpos := spacing_pos a
  omega

theorem NearestUnits.eq {q : ℚ} {a b : Nat} (ha : NearestUnits q a) (hb : NearestUnits q b) :
    a = b :=
  le_antisymm (hb.le ha) (ha.le hb)

theorem precise_nearestUnits (num den : Nat) : Precise (nearestUnits num den) :=
  Nat.dvd_of_mod_eq_zero (nearestUnits_mod num den)

theorem nearest_eq_or (num den : Nat) :
    nearest num den = num / den ∨ nearest num den = num / den + 1 := by
  have hle := nearest_le num den
  have hge := div_le_nearest num den
  omega

theorem nearest_tie {num den : Nat} (h : 2 * (num % den) = den) : nearest num den % 2 = 0 := by
  rw [nearest, if_neg (by omega), if_neg (by omega)]
  omega

theorem ratio_sub_low {num den s : Nat} (hden : 0 < den) :
    (num / den : ℚ) - (num / den / s * s : Nat) = (num % (den * s) : Nat) / den := by
  have hpos : (0 : ℚ) < den := by exact_mod_cast hden
  have hsplit := Nat.div_add_mod num (den * s)
  rw [← Nat.div_div_eq_div_mul, Nat.mul_assoc] at hsplit
  have hcast : (den : ℚ) * (num / den / s * s : Nat) + (num % (den * s) : Nat) = num := by
    exact_mod_cast (by rw [Nat.mul_comm (num / den / s)]; exact hsplit)
  field_simp
  linarith

theorem nearestUnits_cases (num : Nat) {den s low : Nat} (hden : 0 < den)
    (hs : spacing (num / den) = s) (hlow : num / den / s * s = low) :
    0 ≤ (num / den - low : ℚ) ∧ (num / den - low : ℚ) < s ∧
      (nearestUnits num den = low ∧ 2 * (num / den - low : ℚ) ≤ s ∨
        nearestUnits num den = low + s ∧ (s : ℚ) ≤ 2 * (num / den - low)) ∧
      (2 * (num / den - low : ℚ) = s → 2 * s ∣ nearestUnits num den) := by
  have hpos : (0 : ℚ) < den := by exact_mod_cast hden
  have hspos : 0 < s := hs ▸ spacing_pos _
  have hquotient : num / (den * s) = num / den / s := (Nat.div_div_eq_div_mul ..).symm
  have hunits : nearestUnits num den = nearest num (den * s) * s := by rw [nearestUnits, hs]
  rw [← hlow, ratio_sub_low hden, hunits]
  have hrest : num % (den * s) < den * s := Nat.mod_lt _ (Nat.mul_pos hden hspos)
  have hle : 2 * ((num % (den * s) : Nat) / den : ℚ) ≤ s ↔ 2 * (num % (den * s)) ≤ den * s := by
    rw [← mul_div_assoc, div_le_iff₀ hpos, mul_comm (s : ℚ)]
    exact_mod_cast Iff.rfl
  have hge : (s : ℚ) ≤ 2 * ((num % (den * s) : Nat) / den : ℚ) ↔
      den * s ≤ 2 * (num % (den * s)) := by
    rw [← mul_div_assoc, le_div_iff₀ hpos, mul_comm (s : ℚ)]
    exact_mod_cast Iff.rfl
  refine ⟨by positivity, ?_, ?_, fun htie => ?_⟩
  · rw [div_lt_iff₀ hpos, mul_comm (s : ℚ)]
    exact_mod_cast hrest
  · rcases Nat.lt_trichotomy (2 * (num % (den * s))) (den * s) with hlt | heq | hgt
    · refine .inl ⟨?_, hle.2 hlt.le⟩
      rw [nearest, if_pos hlt, hquotient]
    · rcases nearest_eq_or num (den * s) with hnearest | hnearest
      · exact .inl ⟨by rw [hnearest, hquotient], hle.2 heq.le⟩
      · exact .inr ⟨by rw [hnearest, hquotient, Nat.add_mul, Nat.one_mul], hge.2 heq.ge⟩
    · refine .inr ⟨?_, hge.2 hgt.le⟩
      rw [nearest, if_neg hgt.not_gt, if_pos hgt, hquotient, Nat.add_mul, Nat.one_mul]
  · have heven := nearest_tie (Nat.le_antisymm (hle.1 htie.le) (hge.1 htie.ge))
    exact Nat.mul_dvd_mul_right (Nat.dvd_of_mod_eq_zero heven) s

theorem even_nearestUnits {num den : Nat} (h : 2 * spacing (num / den) ∣ nearestUnits num den) :
    2 * spacing (nearestUnits num den) ∣ nearestUnits num den := by
  have hle := nearestUnits_le_pow num den
  rcases Nat.eq_or_lt_of_le hle with heq | hlt
  · rw [heq, spacing_eq, Nat.log2_two_pow, ← Nat.pow_succ']
    exact Nat.pow_dvd_pow 2 (by omega)
  · have hspacing : spacing (nearestUnits num den) ∣ spacing (num / den) :=
      Nat.pow_dvd_pow 2 (Nat.sub_le_sub_right (log2_le_of_lt hlt) 52)
    exact (Nat.mul_dvd_mul_left 2 hspacing).trans h

theorem nearer_of_neighbours {r low s near : ℚ} (other : ℚ) (hlow : 0 ≤ r - low)
    (hhigh : r - low < s)
    (hnear : near = low ∧ 2 * (r - low) ≤ s ∨ near = low + s ∧ s ≤ 2 * (r - low))
    (hother : other ≤ low ∨ low + s ≤ other) :
    |near - r| ≤ |other - r| ∧
      (other ≠ near → |other - r| = |near - r| → 2 * (r - low) = s) := by
  have hdistance : |other - r| = r - other ∧ other ≤ low ∨
      |other - r| = other - r ∧ low + s ≤ other := by
    rcases hother with h | h
    · exact .inl ⟨by rw [abs_sub_comm, abs_of_nonneg (by linarith)], h⟩
    · exact .inr ⟨abs_of_nonneg (by linarith), h⟩
  rcases hnear with ⟨rfl, hhalf⟩ | ⟨rfl, hhalf⟩
  · rw [abs_sub_comm near r, abs_of_nonneg hlow]
    rcases hdistance with ⟨hd, h⟩ | ⟨hd, h⟩ <;> rw [hd]
    · refine ⟨by linarith, fun hne heq => absurd ?_ hne⟩
      linarith
    · exact ⟨by linarith, fun _ heq => by linarith⟩
  · rw [abs_of_nonneg (show 0 ≤ low + s - r by linarith)]
    rcases hdistance with ⟨hd, h⟩ | ⟨hd, h⟩ <;> rw [hd]
    · exact ⟨by linarith, fun _ heq => by linarith⟩
    · refine ⟨by linarith, fun hne heq => absurd ?_ hne⟩
      linarith

theorem nearestUnits_nearest {num den : Nat} (hden : 0 < den) :
    NearestUnits (num / (den * unitsPerOne)) (nearestUnits num den) := by
  have hpos : (0 : ℚ) < unitsPerOne := by exact_mod_cast unitsPerOne_pos
  have hdenPos : (0 : ℚ) < den := by exact_mod_cast hden
  have hratio : (num / (den * unitsPerOne) * unitsPerOne : ℚ) = num / den := by
    field_simp
  obtain ⟨low, hlow⟩ : ∃ low, num / den / spacing (num / den) * spacing (num / den) = low :=
    ⟨_, rfl⟩
  obtain ⟨hbelow, habove, hcases, heven⟩ := nearestUnits_cases num hden rfl hlow
  have hnear : (nearestUnits num den : ℚ) = low ∧ 2 * (num / den - low : ℚ) ≤ spacing (num / den) ∨
      (nearestUnits num den : ℚ) = low + spacing (num / den) ∧
        (spacing (num / den) : ℚ) ≤ 2 * (num / den - low) := by
    rcases hcases with ⟨h, hhalf⟩ | ⟨h, hhalf⟩
    · exact .inl ⟨by rw [h], hhalf⟩
    · exact .inr ⟨by rw [h, Nat.cast_add], hhalf⟩
  have hnearer (other : Nat) (h : Precise other) :=
    nearer_of_neighbours (other : ℚ) hbelow habove hnear (by
      rcases h.le_or_le (n := num / den) with h | h <;> rw [hlow] at h
      · exact .inl (by exact_mod_cast h)
      · exact .inr (by exact_mod_cast h))
  refine ⟨precise_nearestUnits num den, ?_, ?_⟩
  · intro other h
    rw [abs_magnitude_le_iff, hratio]
    exact (hnearer other h).1
  · intro other h hne heq
    have hne' : (other : ℚ) ≠ nearestUnits num den := by exact_mod_cast hne
    have heq' := le_antisymm (abs_magnitude_le_iff.1 heq.le) (abs_magnitude_le_iff.1 heq.ge)
    rw [hratio] at heq'
    exact even_nearestUnits (heven ((hnearer other h).2 hne' heq'))

theorem nearestUnits_iff {num den units : Nat} (hden : 0 < den) :
    NearestUnits (num / (den * unitsPerOne)) units ↔ units = nearestUnits num den := by
  constructor
  · intro h
    exact h.eq (nearestUnits_nearest hden)
  · rintro rfl
    exact nearestUnits_nearest hden

namespace Double

theorem isNearest_ofRatio_iff {negative : Bool} {num den : Nat} (hden : 0 < den) {x : Double} :
    IsNearest negative (num / (den * unitsPerOne)) x ↔ x = ofRatio negative num den := by
  constructor
  · rintro (⟨fits, h⟩ | ⟨hlarge, h⟩)
    · obtain rfl := (nearestUnits_iff hden).1 h
      rw [ofRatio, dif_pos fits.2]
    · obtain rfl := (nearestUnits_iff hden).1 h
      rw [ofRatio, dif_neg (Nat.not_lt.2 hlarge)]
  · rintro rfl
    rw [ofRatio]
    split
    · rename_i hlt
      exact .finite _ (nearestUnits_nearest hden)
    · rename_i hlarge
      exact .infinite (Nat.not_lt.1 hlarge) (nearestUnits_nearest hden)

theorem isNearest_ofDecimal_iff {negative : Bool} {digits : Nat} {exponent : Int} {x : Double} :
    IsNearest negative (digits * 10 ^ exponent) x ↔ x = ofDecimal negative digits exponent := by
  have hpow : 0 < 10 ^ (-exponent).toNat := Nat.pow_pos (by decide)
  rw [ofDecimal_eq, ← isNearest_ofRatio_iff hpow]
  have hpos : (0 : ℚ) < unitsPerOne := by exact_mod_cast unitsPerOne_pos
  have hvalue : (digits * 10 ^ exponent : ℚ) =
      (digits * 10 ^ exponent.toNat * unitsPerOne : Nat) /
        ((10 ^ (-exponent).toNat : Nat) * unitsPerOne) := by
    push_cast
    have hzpow : (10 : ℚ) ^ exponent = 10 ^ exponent.toNat / 10 ^ (-exponent).toNat := by
      rw [← zpow_natCast, ← zpow_natCast, ← zpow_sub₀ (by norm_num),
        Int.toNat_sub_toNat_neg exponent]
    rw [mul_div_mul_right _ _ hpos.ne', mul_div_assoc, hzpow]
  rw [hvalue]

end Double

end PolishCalc
