import PolishCalc.Number.Decimal
import PolishCalc.Proofs.Number.Finite

namespace PolishCalc

namespace Double

theorem ofRatio_eq_ofRatio {a b c d : Nat} (hb : 0 < b) (hd : 0 < d) (h : a * d = c * b)
    (negative : Bool) : ofRatio negative a b = ofRatio negative c d := by
  have hnearest : nearestUnits a b = nearestUnits c d := by
    rw [← nearestUnits_mul hd a b, ← nearestUnits_mul hb c d, h, Nat.mul_comm d b]
  simp only [ofRatio, hnearest]

theorem ofRatio_of_overflow {num den : Nat} (h : overflowUnits ≤ num / den) (negative : Bool) :
    ofRatio negative num den = .infinity negative := by
  have hne : num / den ≠ 0 := Nat.ne_of_gt (Nat.lt_of_lt_of_le overflowUnits_pos h)
  have hlog : unitExponent + 1024 ≤ (num / den).log2 := by
    rw [overflowUnits_eq] at h
    exact (Nat.le_log2 hne).2 h
  have hlarge : overflowUnits ≤ nearestUnits num den := by
    refine Nat.le_trans ?_ (pow_le_nearestUnits hne)
    rw [overflowUnits_eq]
    exact Nat.pow_le_pow_right (by decide) hlog
  exact dif_neg (Nat.not_lt.2 hlarge)

theorem nearestUnits_eq_zero {num den : Nat} (h : 2 * num < den) : nearestUnits num den = 0 := by
  have hquotient : num / den = 0 := Nat.div_eq_of_lt (by omega)
  have hspacing : spacing 0 = 1 := rfl
  rw [nearestUnits, hquotient, hspacing, Nat.mul_one, Nat.mul_one]
  exact nearest_eq_of_lt (by omega) (by omega)

theorem two_mul_lt_pow {digits e : Nat} (h : digits.log2 + 1100 ≤ e) :
    2 * (digits * unitsPerOne) < 10 ^ e := by
  have hdigits : digits < 2 ^ (digits.log2 + 1) := Nat.lt_log2_self
  calc 2 * (digits * unitsPerOne)
      < 2 * (2 ^ (digits.log2 + 1) * unitsPerOne) :=
        Nat.mul_lt_mul_of_pos_left (Nat.mul_lt_mul_of_pos_right hdigits unitsPerOne_pos) (by decide)
    _ = 2 ^ (digits.log2 + unitExponent + 2) := by
        rw [unitsPerOne_eq]
        ring
    _ ≤ 2 ^ e := Nat.pow_le_pow_right (by decide) (by unfold unitExponent; omega)
    _ ≤ 10 ^ e := Nat.pow_le_pow_left (by decide) e

theorem ofDecimal_eq (negative : Bool) (digits : Nat) (exponent : Int) :
    ofDecimal negative digits exponent =
      ofRatio negative (digits * 10 ^ exponent.toNat * unitsPerOne) (10 ^ (-exponent).toNat) := by
  cases exponent with
  | ofNat e =>
    have hself : (Int.ofNat e).toNat = e := rfl
    have hzero : (-(Int.ofNat e)).toNat = 0 := by simp
    rw [ofDecimal, hself, hzero, Nat.pow_zero, Nat.pow_eq]
    by_cases hsmall : e ≤ 400
    · rw [Nat.min_eq_left hsmall]
    by_cases hdigits : digits = 0
    · simp [hdigits]
    have hlarge (n : Nat) (hn : 400 ≤ n) : overflowUnits ≤ digits * 10 ^ n * unitsPerOne / 1 := by
      calc overflowUnits
          = 2 ^ (unitExponent + 1024) := overflowUnits_eq
        _ ≤ 2 ^ (unitExponent + 3 * n) := Nat.pow_le_pow_right (by decide) (by omega)
        _ = 8 ^ n * unitsPerOne := by
            rw [unitsPerOne_eq, Nat.add_comm, Nat.pow_add, Nat.pow_mul]
        _ ≤ 10 ^ n * unitsPerOne :=
            Nat.mul_le_mul_right _ (Nat.pow_le_pow_left (by decide) n)
        _ ≤ digits * 10 ^ n * unitsPerOne := Nat.mul_le_mul_right _
            (Nat.le_mul_of_pos_left _ (Nat.pos_of_ne_zero hdigits))
        _ = digits * 10 ^ n * unitsPerOne / 1 := (Nat.div_one _).symm
    rw [ofRatio_of_overflow (hlarge _ (by omega)), ofRatio_of_overflow (hlarge _ (by omega))]
  | negSucc e =>
    have hpos : (-(Int.negSucc e)).toNat = e + 1 := rfl
    rw [ofDecimal, hpos, Int.toNat_negSucc, Nat.pow_zero, Nat.mul_one, Nat.pow_eq]
    rcases Nat.le_total (e + 1) (digits.log2 + 1100) with hsmall | hlarge
    · rw [Nat.min_eq_left hsmall]
    · rw [Nat.min_eq_right hlarge]
      simp only [ofRatio, nearestUnits_eq_zero (two_mul_lt_pow hlarge),
        nearestUnits_eq_zero (two_mul_lt_pow (Nat.le_refl (digits.log2 + 1100)))]

theorem ofDecimal_mul_pow (negative : Bool) (digits k : Nat) (exponent : Int) :
    ofDecimal negative (digits * 10 ^ k) exponent = ofDecimal negative digits (exponent + k) := by
  rw [ofDecimal_eq, ofDecimal_eq]
  apply ofRatio_eq_ofRatio (Nat.pow_pos (by decide)) (Nat.pow_pos (by decide))
  have hexponents : k + exponent.toNat + (-(exponent + k)).toNat =
      (exponent + k).toNat + (-exponent).toNat := by omega
  calc digits * 10 ^ k * 10 ^ exponent.toNat * unitsPerOne * 10 ^ (-(exponent + k)).toNat
      = digits * unitsPerOne * 10 ^ (k + exponent.toNat + (-(exponent + k)).toNat) := by ring
    _ = digits * 10 ^ (exponent + k).toNat * unitsPerOne * 10 ^ (-exponent).toNat := by
        rw [hexponents]
        ring

end Double

namespace Decimal

theorem gridRatio_eq (units : Nat) (exponent : Int) :
    gridRatio units exponent =
      (units * 10 ^ (-exponent).toNat, unitsPerOne * 10 ^ exponent.toNat) := by
  cases exponent with
  | ofNat e =>
    have hzero : (-(Int.ofNat e)).toNat = 0 := by simp
    rw [gridRatio, hzero, Nat.pow_zero, Nat.mul_one]
    rfl
  | negSucc e =>
    rw [gridRatio, Int.toNat_negSucc, Nat.pow_zero, Nat.mul_one]
    rfl

theorem lt_pow_length_toDigits (n : Nat) : n < 10 ^ (Nat.toDigits 10 n).length :=
  (Nat.length_toDigits_le_iff (by decide) Nat.length_toDigits_pos).1 (Nat.le_refl _)

theorem pow_length_toDigits_le {n : Nat} (h : 0 < n) :
    10 ^ ((Nat.toDigits 10 n).length - 1) ≤ n := by
  by_contra hlt
  by_cases hone : (Nat.toDigits 10 n).length - 1 = 0
  · rw [hone] at hlt
    omega
  · have hle := (Nat.length_toDigits_le_iff (by decide) (by omega)).2 (Nat.not_le.1 hlt)
    omega

theorem le_leadingExponent {units : Nat} (h : 0 < units) :
    unitsPerOne * 10 ^ (leadingExponent units).toNat ≤
      units * 10 ^ (-leadingExponent units).toNat := by
  rw [leadingExponent]
  split
  · rename_i hle
    have hwhole : 0 < units / unitsPerOne := Nat.div_pos hle unitsPerOne_pos
    have hlength := @Nat.length_toDigits_pos 10 (units / unitsPerOne)
    have hlead : (((Nat.toDigits 10 (units / unitsPerOne)).length : Int) - 1).toNat =
      (Nat.toDigits 10 (units / unitsPerOne)).length - 1 := by omega
    have hzero : (-(((Nat.toDigits 10 (units / unitsPerOne)).length : Int) - 1)).toNat = 0 := by
      omega
    rw [hlead, hzero, Nat.pow_zero, Nat.mul_one, Nat.mul_comm]
    calc 10 ^ ((Nat.toDigits 10 (units / unitsPerOne)).length - 1) * unitsPerOne
        ≤ units / unitsPerOne * unitsPerOne :=
          Nat.mul_le_mul_right _ (pow_length_toDigits_le hwhole)
      _ ≤ units := Nat.div_mul_le_self _ _
  · have hdigits := lt_pow_length_toDigits ((unitsPerOne - 1) / units)
    have hlt := (Nat.div_lt_iff_lt_mul h).1 hdigits
    have hpos := unitsPerOne_pos
    rw [Int.neg_neg, Int.toNat_natCast, Int.toNat_of_nonpos (by omega), Nat.pow_zero, Nat.mul_one,
      Nat.mul_comm]
    omega

theorem gridRatio_large {units : Nat} (h : 0 < units) :
    10 ^ 16 * (gridRatio units (leadingExponent units - 16)).2 ≤
      (gridRatio units (leadingExponent units - 16)).1 := by
  have hlead := le_leadingExponent h
  generalize leadingExponent units = lead at hlead ⊢
  rw [gridRatio_eq]
  dsimp only
  have hexponents : 16 + (lead - 16).toNat + (-lead).toNat =
      lead.toNat + (-(lead - 16)).toNat := by omega
  apply Nat.le_of_mul_le_mul_right _ (Nat.pow_pos (show 0 < 10 by decide) : 0 < 10 ^ (-lead).toNat)
  calc 10 ^ 16 * (unitsPerOne * 10 ^ (lead - 16).toNat) * 10 ^ (-lead).toNat
      = unitsPerOne * 10 ^ (16 + (lead - 16).toNat + (-lead).toNat) := by ring
    _ = unitsPerOne * 10 ^ lead.toNat * 10 ^ (-(lead - 16)).toNat := by
        rw [hexponents]
        ring
    _ ≤ units * 10 ^ (-lead).toNat * 10 ^ (-(lead - 16)).toNat := Nat.mul_le_mul_right _ hlead
    _ = units * 10 ^ (-(lead - 16)).toNat * 10 ^ (-lead).toNat := Nat.mul_right_comm ..

theorem nearestUnits_of_readsBack {units : Nat} {d : Decimal} (h : readsBack units d = true) :
    nearestUnits (d.digits * 10 ^ d.exponent.toNat * unitsPerOne) (10 ^ (-d.exponent).toNat) =
      units := by
  rw [readsBack, Double.ofDecimal_eq] at h
  by_cases hlt : nearestUnits (d.digits * 10 ^ d.exponent.toNat * unitsPerOne)
      (10 ^ (-d.exponent).toNat) < overflowUnits
  · obtain ⟨fits, heq⟩ := Double.ofRatio_of_nearestUnits_lt hlt false
    rw [heq] at h
    exact beq_iff_eq.1 h
  · rw [Double.ofRatio, dif_neg hlt] at h
    cases h

theorem ofDecimal_of_readsBack {units : Nat} {d : Decimal} (h : readsBack units d = true)
    (fits : Fits units) (negative : Bool) :
    Double.ofDecimal negative d.digits d.exponent = .finite negative units fits := by
  have hnearest := nearestUnits_of_readsBack h
  have hlt : nearestUnits (d.digits * 10 ^ d.exponent.toNat * unitsPerOne)
      (10 ^ (-d.exponent).toNat) < overflowUnits := by
    rw [hnearest]
    exact fits.2
  obtain ⟨_, heq⟩ := Double.ofRatio_of_nearestUnits_lt hlt negative
  rw [Double.ofDecimal_eq, heq]
  simp only [hnearest]

theorem readsBack_of_nearestUnits {units : Nat} (fits : Fits units) {d : Decimal}
    (h : nearestUnits (d.digits * 10 ^ d.exponent.toNat * unitsPerOne) (10 ^ (-d.exponent).toNat) =
      units) : readsBack units d = true := by
  have hlt : nearestUnits (d.digits * 10 ^ d.exponent.toNat * unitsPerOne)
      (10 ^ (-d.exponent).toNat) < overflowUnits := by
    rw [h]
    exact fits.2
  obtain ⟨_, heq⟩ := Double.ofRatio_of_nearestUnits_lt hlt false
  rw [readsBack, Double.ofDecimal_eq, heq]
  exact beq_iff_eq.2 h

theorem readsBack_nearest {units : Nat} (fits : Fits units) (h : 0 < units) {last : Int}
    (hlast : last = leadingExponent units - 16) :
    readsBack units
      ⟨nearest (gridRatio units last).1 (gridRatio units last).2, last⟩ = true := by
  have hlarge := gridRatio_large h
  rw [← hlast, gridRatio_eq] at hlarge
  rw [gridRatio_eq]
  dsimp only at hlarge ⊢
  have hstep : 0 < unitsPerOne * 10 ^ last.toNat :=
    Nat.mul_pos unitsPerOne_pos (Nat.pow_pos (by decide))
  obtain ⟨hlow, hhigh⟩ := nearest_bounds hstep (units * 10 ^ (-last).toNat)
  apply readsBack_of_nearestUnits fits
  dsimp only
  generalize nearest (units * 10 ^ (-last).toNat) (unitsPerOne * 10 ^ last.toNat) = n at *
  have hnum : n * 10 ^ last.toNat * unitsPerOne = unitsPerOne * 10 ^ last.toNat * n := by ring
  have htwice : unitsPerOne * 10 ^ last.toNat * (2 * n) =
      2 * (unitsPerOne * 10 ^ last.toNat * n) := by ring
  rw [Nat.mul_add, htwice, Nat.mul_one] at hlow
  rw [htwice] at hhigh
  rw [hnum]
  apply nearestUnits_eq_of_close fits (Nat.pow_pos (by decide))
  · omega
  · omega

theorem readsBack_of_onGrid? {units : Nat} {exponent : Int} {d : Decimal}
    (h : onGrid? units exponent = some d) : readsBack units d = true := by
  simp only [onGrid?] at h
  generalize nearest (gridRatio units exponent).1 (gridRatio units exponent).2 = near at h
  generalize (if near = _ then _ else _) = far at h
  split at h
  · rename_i hreads
    obtain rfl := Option.some.inj h
    exact hreads
  · split at h
    · rename_i hreads
      obtain rfl := Option.some.inj h
      exact hreads
    · cases h

theorem readsBack_shortest {units : Nat} (fits : Fits units) (h : 0 < units) :
    readsBack units (shortest units) = true := by
  simp only [shortest]
  cases hfound : (List.range enoughDigits).findSome?
    fun n : Nat => onGrid? units (leadingExponent units - n) with
  | some d =>
    obtain ⟨n, -, hn⟩ := List.exists_of_findSome?_eq_some hfound
    exact readsBack_of_onGrid? hn
  -- no shorter decimal reads back
  | none => exact readsBack_nearest fits h rfl

theorem ofDecimal_strip (negative : Bool) (fuel : Nat) (d : Decimal) :
    Double.ofDecimal negative (d.strip fuel).digits (d.strip fuel).exponent =
      Double.ofDecimal negative d.digits d.exponent := by
  induction fuel generalizing d with
  | zero => rfl
  | succ fuel ih =>
    rw [strip]
    split
    · rename_i hzero
      have hdigits : d.digits / 10 * 10 ^ 1 = d.digits := by omega
      rw [ih]
      dsimp only
      rw [← hdigits, Double.ofDecimal_mul_pow]
      simp
    · rfl

end Decimal

end PolishCalc
