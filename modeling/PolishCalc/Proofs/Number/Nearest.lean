import Mathlib.Tactic.Linarith
import Mathlib.Tactic.Ring
import PolishCalc.Number.Double

namespace PolishCalc

theorem nearest_bounds {den : Nat} (h : 0 < den) (num : Nat) :
    2 * num ≤ den * (2 * nearest num den + 1) ∧ den * (2 * nearest num den) ≤ 2 * num + den := by
  have hsplit : den * (num / den) + num % den = num := Nat.div_add_mod num den
  have hrest : num % den < den := Nat.mod_lt num h
  have hdouble (m : Nat) : den * (2 * m) = 2 * (den * m) := by ring
  have hnext : den * (num / den + 1) = den * (num / den) + den := by ring
  simp only [nearest, Nat.mul_add, hdouble]
  split
  · omega
  split
  · omega
  · rcases Nat.mod_two_eq_zero_or_one (num / den) with hparity | hparity
    · rw [hparity, Nat.add_zero]
      omega
    · rw [hparity, hnext]
      omega

theorem nearest_eq_of_lt {num den m : Nat} (hlow : den * (2 * m) < 2 * num + den)
    (hhigh : 2 * num < den * (2 * m + 1)) : nearest num den = m := by
  have hden : 0 < den := Nat.pos_of_ne_zero (by rintro rfl; simp at hhigh)
  obtain ⟨hle, hge⟩ := nearest_bounds hden num
  apply Nat.le_antisymm
  · have hlt : den * (2 * nearest num den) < den * (2 * m + 2) := by
      rw [Nat.mul_add] at hhigh ⊢
      omega
    have := Nat.lt_of_mul_lt_mul_left hlt
    omega
  · have hlt : den * (2 * m) < den * (2 * nearest num den + 2) := by
      rw [Nat.mul_add] at hle ⊢
      omega
    have := Nat.lt_of_mul_lt_mul_left hlt
    omega

theorem nearest_mul {k : Nat} (hk : 0 < k) (num den : Nat) :
    nearest (num * k) (den * k) = nearest num den := by
  have hlt (a b : Nat) : 2 * (a * k) < b * k ↔ 2 * a < b := by
    rw [← Nat.mul_assoc]
    exact Nat.mul_lt_mul_right hk
  have hgt (a b : Nat) : b * k < 2 * (a * k) ↔ b < 2 * a := by
    rw [← Nat.mul_assoc]
    exact Nat.mul_lt_mul_right hk
  simp only [nearest, Nat.mul_div_mul_right _ _ hk, Nat.mul_mod_mul_right, hlt, hgt]

theorem nearest_mul_self {den : Nat} (h : 0 < den) (m : Nat) : nearest (m * den) den = m := by
  apply nearest_eq_of_lt
  · rw [show den * (2 * m) = 2 * (m * den) by ring]
    omega
  · rw [show den * (2 * m + 1) = 2 * (m * den) + den by ring]
    omega

theorem nearest_mono {a b den : Nat} (h : a ≤ b) : nearest a den ≤ nearest b den := by
  rcases Nat.eq_or_lt_of_le (Nat.div_le_div_right h (c := den)) with heq | hlt
  · have hrest : a % den ≤ b % den := by
      have ha := Nat.div_add_mod a den
      have hb := Nat.div_add_mod b den
      rw [heq] at ha
      omega
    simp only [nearest, heq]
    split_ifs <;> omega
  · calc nearest a den
        ≤ a / den + 1 := nearest_le a den
      _ ≤ b / den := hlt
      _ ≤ nearest b den := div_le_nearest b den

theorem log2_mono {a b : Nat} (h : a ≤ b) : a.log2 ≤ b.log2 := by
  by_cases ha : a = 0
  · simp [ha]
  · exact (Nat.le_log2 (by omega)).2 (Nat.le_trans (Nat.log2_self_le ha) h)

theorem spacing_eq (n : Nat) : spacing n = 2 ^ (n.log2 - 52) := rfl

theorem spacing_dvd_spacing {a b : Nat} (h : a ≤ b) : spacing a ∣ spacing b :=
  Nat.pow_dvd_pow 2 (Nat.sub_le_sub_right (log2_mono h) 52)

theorem spacing_dvd_pow {n e : Nat} (h : n.log2 ≤ e + 52) : spacing n ∣ 2 ^ e :=
  Nat.pow_dvd_pow 2 (by omega)

theorem pow_le_spacing (n : Nat) : 2 ^ n.log2 ≤ 2 ^ 52 * spacing n := by
  rw [spacing_eq, ← Nat.pow_add]
  exact Nat.pow_le_pow_right (by decide) (by omega)

theorem lt_spacing (n : Nat) : n < 2 ^ 53 * spacing n := by
  have := pow_le_spacing n
  have := Nat.lt_log2_self (n := n)
  rw [Nat.pow_succ] at this
  omega

theorem spacing_eq_one_or (n : Nat) : spacing n = 1 ∨ 2 ^ 52 * spacing n ≤ n := by
  rcases Nat.lt_or_ge n.log2 52 with hsmall | hlarge
  · left
    rw [spacing_eq, Nat.sub_eq_zero_of_le (by omega), pow_zero]
  · right
    have hn : n ≠ 0 := by
      rintro rfl
      simp at hlarge
    calc 2 ^ 52 * spacing n
        = 2 ^ n.log2 := by rw [spacing_eq, ← Nat.pow_add, Nat.add_sub_cancel' hlarge]
      _ ≤ n := Nat.log2_self_le hn

theorem add_spacing_le {n : Nat} (h : spacing n ∣ n) : n + spacing n ≤ 2 ^ (n.log2 + 1) := by
  have hpow : spacing n ∣ 2 ^ (n.log2 + 1) := spacing_dvd_pow (by omega)
  have hlt : n < 2 ^ (n.log2 + 1) := Nat.lt_log2_self
  have hdiff := Nat.le_of_dvd (by omega) (Nat.dvd_sub hpow h)
  omega

namespace Fits

variable {k : Nat}

theorem dvd (h : Fits k) : spacing k ∣ k :=
  Nat.dvd_of_mod_eq_zero h.1

theorem of_dvd (h : Fits k) {m : Nat} (hle : m ≤ k) (hdvd : spacing k ∣ m) : Fits m :=
  ⟨Nat.mod_eq_zero_of_dvd (Nat.dvd_trans (spacing_dvd_spacing hle) hdvd),
    Nat.lt_of_le_of_lt hle h.2⟩

theorem mod {a b : Nat} (ha : Fits a) (hb : Fits b) (hpos : 0 < b) : Fits (a % b) := by
  have hlt := Nat.mod_lt a hpos
  rcases Nat.le_total (spacing a) (spacing b) with hle | hle
  · have hdvd : spacing a ∣ spacing b := (Nat.pow_dvd_pow_iff_le_right (by decide)).2
      ((Nat.pow_le_pow_iff_right (by decide)).1 hle)
    have hrest : spacing a ∣ a % b := (Nat.dvd_mod_iff (Nat.dvd_trans hdvd hb.dvd)).2 ha.dvd
    exact ha.of_dvd (Nat.mod_le a b) hrest
  · have hdvd : spacing b ∣ spacing a := (Nat.pow_dvd_pow_iff_le_right (by decide)).2
      ((Nat.pow_le_pow_iff_right (by decide)).1 hle)
    have hrest : spacing b ∣ a % b := (Nat.dvd_mod_iff hb.dvd).2 (Nat.dvd_trans hdvd ha.dvd)
    exact hb.of_dvd (Nat.le_of_lt hlt) hrest

theorem add_le_of_lt_pow (h : Fits k) {e : Nat} (hlt : k < 2 ^ e) :
    2 ^ 53 * k + 2 ^ e ≤ 2 ^ 53 * 2 ^ e := by
  by_cases hk : k = 0
  · subst hk
    omega
  have hlog : 2 ^ (k.log2 + 1) ≤ 2 ^ e :=
    Nat.pow_le_pow_right (by decide) ((Nat.log2_lt hk).2 hlt)
  have hstep := add_spacing_le h.dvd
  have hspacing := pow_le_spacing k
  rw [Nat.pow_succ] at hlog hstep
  omega

theorem le_of_pow_lt (h : Fits k) {e : Nat} (hlt : 2 ^ e < k) :
    2 ^ 52 * 2 ^ e + 2 ^ e ≤ 2 ^ 52 * k := by
  have hk : k ≠ 0 := Nat.ne_of_gt (Nat.lt_of_le_of_lt (Nat.zero_le _) hlt)
  have hlog : e ≤ k.log2 := (Nat.le_log2 hk).2 (Nat.le_of_lt hlt)
  have hself : 2 ^ k.log2 ≤ k := Nat.log2_self_le hk
  rcases Nat.eq_or_lt_of_le hlog with rfl | hlog
  · have hpow : spacing k ∣ 2 ^ k.log2 := spacing_dvd_pow (by omega)
    have hdiff := Nat.le_of_dvd (by omega) (Nat.dvd_sub h.dvd hpow)
    have hspacing := pow_le_spacing k
    omega
  · have hdouble : 2 ^ (e + 1) ≤ 2 ^ k.log2 := Nat.pow_le_pow_right (by decide) hlog
    rw [Nat.pow_succ] at hdouble
    omega

end Fits

theorem nearestUnits_mul {k : Nat} (hk : 0 < k) (num den : Nat) :
    nearestUnits (num * k) (den * k) = nearestUnits num den := by
  simp only [nearestUnits, Nat.mul_div_mul_right _ _ hk]
  rw [Nat.mul_right_comm, nearest_mul hk]

theorem nearestUnits_le_pow (num den : Nat) :
    nearestUnits num den ≤ 2 ^ ((num / den).log2 + 1) := by
  have hpow : spacing (num / den) ∣ 2 ^ ((num / den).log2 + 1) := spacing_dvd_pow (by omega)
  have hquotient : num / den / spacing (num / den) <
      2 ^ ((num / den).log2 + 1) / spacing (num / den) :=
    Nat.div_lt_div_of_lt_of_dvd hpow Nat.lt_log2_self
  have hnearest := nearest_le num (den * spacing (num / den))
  rw [← Nat.div_div_eq_div_mul] at hnearest
  calc nearestUnits num den
      ≤ 2 ^ ((num / den).log2 + 1) / spacing (num / den) * spacing (num / den) :=
        Nat.mul_le_mul_right _ (by omega)
    _ = 2 ^ ((num / den).log2 + 1) := Nat.div_mul_cancel hpow

theorem pow_le_nearestUnits {num den : Nat} (h : num / den ≠ 0) :
    2 ^ (num / den).log2 ≤ nearestUnits num den := by
  have hpow : spacing (num / den) ∣ 2 ^ (num / den).log2 := spacing_dvd_pow (by omega)
  have hquotient : 2 ^ (num / den).log2 / spacing (num / den) ≤
      num / den / spacing (num / den) := Nat.div_le_div_right (Nat.log2_self_le h)
  have hnearest := div_le_nearest num (den * spacing (num / den))
  rw [← Nat.div_div_eq_div_mul] at hnearest
  calc 2 ^ (num / den).log2
      = 2 ^ (num / den).log2 / spacing (num / den) * spacing (num / den) :=
        (Nat.div_mul_cancel hpow).symm
    _ ≤ nearestUnits num den := Nat.mul_le_mul_right _ (by omega)

theorem nearestUnits_mono_left {a b den : Nat} (h : a ≤ b) :
    nearestUnits a den ≤ nearestUnits b den := by
  have hquotient : a / den ≤ b / den := Nat.div_le_div_right h
  rcases Nat.eq_or_lt_of_le (log2_mono hquotient) with heq | hlt
  · rw [nearestUnits, nearestUnits, spacing_eq, spacing_eq, heq]
    exact Nat.mul_le_mul_right _ (nearest_mono h)
  · have hne : b / den ≠ 0 := by
      intro hzero
      simp [hzero] at hlt
    calc nearestUnits a den
        ≤ 2 ^ ((a / den).log2 + 1) := nearestUnits_le_pow a den
      _ ≤ 2 ^ (b / den).log2 := Nat.pow_le_pow_right (by decide) hlt
      _ ≤ nearestUnits b den := pow_le_nearestUnits hne

theorem spacing_of_close {num den k : Nat} (hfits : Fits k) (hden : 0 < den)
    (hlow : 2 ^ 54 * (k * den) < 2 ^ 54 * num + k * den)
    (hhigh : 2 ^ 54 * num < 2 ^ 54 * (k * den) + k * den) :
    spacing (num / den) ∣ k ∧ k ≤ 2 ^ 53 * spacing (num / den) := by
  constructor
  -- otherwise a power of two lies between the number and the ratio, too far from the number
  · refine Nat.dvd_trans (Nat.pow_dvd_pow 2 (Nat.sub_le_sub_right ?_ 52)) hfits.dvd
    by_contra hlog
    have hbelow : k < 2 ^ (num / den).log2 := Nat.lt_of_lt_of_le Nat.lt_log2_self
      (Nat.pow_le_pow_right (by decide) (Nat.not_le.1 hlog))
    have hquotient : 2 ^ (num / den).log2 ≤ num / den := by
      refine Nat.log2_self_le fun hzero => hlog ?_
      simp [hzero]
    have hnum : 2 ^ (num / den).log2 * den ≤ num := (Nat.le_div_iff_mul_le hden).1 hquotient
    have hgap := Nat.mul_le_mul_right den (hfits.add_le_of_lt_pow hbelow)
    have hless := Nat.mul_lt_mul_of_pos_right hbelow hden
    rw [Nat.add_mul, Nat.mul_assoc, Nat.mul_assoc] at hgap
    omega
  · by_contra hsmall
    have hpow : 2 ^ 53 * spacing (num / den) = 2 ^ (53 + ((num / den).log2 - 52)) :=
      (Nat.pow_add ..).symm
    have hnum : num < 2 ^ 53 * spacing (num / den) * den :=
      (Nat.div_lt_iff_lt_mul hden).1 (lt_spacing _)
    rw [hpow] at hsmall hnum
    have hgap := Nat.mul_le_mul_right den (hfits.le_of_pow_lt (Nat.not_le.1 hsmall))
    rw [Nat.add_mul, Nat.mul_assoc, Nat.mul_assoc] at hgap
    omega

theorem nearestUnits_eq_of_close {num den k : Nat} (hfits : Fits k) (hden : 0 < den)
    (hlow : 2 ^ 54 * (k * den) < 2 ^ 54 * num + k * den)
    (hhigh : 2 ^ 54 * num < 2 ^ 54 * (k * den) + k * den) : nearestUnits num den = k := by
  obtain ⟨⟨m, hm⟩, hle⟩ := spacing_of_close hfits hden hlow hhigh
  rw [nearestUnits]
  generalize spacing (num / den) = s at hm hle ⊢
  subst hm
  have hproduct : s * m * den ≤ 2 ^ 53 * (s * den) := by
    rw [← Nat.mul_assoc]
    exact Nat.mul_le_mul_right den hle
  have hnearest : nearest num (den * s) = m := by
    apply nearest_eq_of_lt
    · rw [show den * s * (2 * m) = 2 * (s * m * den) by ring, Nat.mul_comm den s]
      omega
    · rw [show den * s * (2 * m + 1) = 2 * (s * m * den) + s * den by ring]
      omega
  rw [hnearest, Nat.mul_comm]

theorem nearestUnits_of_fits {k den : Nat} (h : Fits k) (hden : 0 < den) :
    nearestUnits (k * den) den = k := by
  rw [nearestUnits, Nat.mul_div_cancel _ hden]
  obtain ⟨m, hm⟩ := h.dvd
  have hk : k * den = m * (den * spacing k) := by
    conv_lhs => rw [hm]
    ring
  rw [hk, nearest_mul_self (Nat.mul_pos hden (spacing_pos k))]
  conv_rhs => rw [hm]
  ring

end PolishCalc
