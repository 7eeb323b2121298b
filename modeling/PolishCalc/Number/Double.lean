namespace PolishCalc

def unitExponent : Nat := 1074

@[irreducible]
def unitsPerOne : Nat := Nat.pow 2 unitExponent

@[irreducible]
def overflowUnits : Nat := Nat.pow 2 (unitExponent + 1024)

/-- The distance between neighbours among the numbers of 53 significant bits that start where
`units` does. -/
def spacing (units : Nat) : Nat :=
  Nat.pow 2 (units.log2 - 52)

/-- A number of units that a finite number can hold: all but 53 of its bits are zeros at the end,
and it is below the overflow threshold. -/
def Fits (units : Nat) : Prop :=
  units % spacing units = 0 ∧ units < overflowUnits

instance (units : Nat) : Decidable (Fits units) :=
  inferInstanceAs (Decidable (_ ∧ _))

inductive Double where
  | nan
  | infinity (negative : Bool)
  | finite (negative : Bool) (units : Nat) (fits : Fits units)
  deriving DecidableEq

def nearest (num den : Nat) : Nat :=
  let quotient := num / den
  let rest := num % den
  if 2 * rest < den then quotient
  else if den < 2 * rest then quotient + 1
  else quotient + quotient % 2

def nearestUnits (num den : Nat) : Nat :=
  nearest num (den * spacing (num / den)) * spacing (num / den)

theorem nearest_le (num den : Nat) : nearest num den ≤ num / den + 1 := by
  simp only [nearest]
  split
  · omega
  · split <;> omega

theorem div_spacing_lt (n : Nat) : n / spacing n < Nat.pow 2 53 := by
  have hpos : 0 < spacing n := Nat.two_pow_pos _
  rw [Nat.div_lt_iff_lt_mul hpos, spacing, Nat.pow_eq, Nat.pow_eq, ← Nat.pow_add]
  exact Nat.lt_of_lt_of_le Nat.lt_log2_self (Nat.pow_le_pow_right (by decide) (by omega))

theorem mul_spacing_mod {m s : Nat} (h : m ≤ Nat.pow 2 53) :
    m * Nat.pow 2 s % spacing (m * Nat.pow 2 s) = 0 := by
  simp only [spacing, Nat.pow_eq] at h ⊢
  by_cases hm : m = 0
  · simp [hm]
  by_cases htop : m = 2 ^ 53
  · subst htop
    rw [← Nat.pow_add, Nat.log2_two_pow]
    exact Nat.mod_eq_zero_of_dvd (Nat.pow_dvd_pow 2 (by omega))
  have hk : m * 2 ^ s ≠ 0 := Nat.mul_ne_zero hm (Nat.ne_of_gt (Nat.two_pow_pos s))
  have hlog : (m * 2 ^ s).log2 < 53 + s := by
    rw [Nat.log2_lt hk, Nat.pow_add]
    exact Nat.mul_lt_mul_of_lt_of_le (by omega) (Nat.le_refl _) (Nat.two_pow_pos s)
  have hdvd : 2 ^ ((m * 2 ^ s).log2 - 52) ∣ 2 ^ s := Nat.pow_dvd_pow 2 (by omega)
  exact Nat.mod_eq_zero_of_dvd (Nat.dvd_trans hdvd (Nat.dvd_mul_left ..))

theorem nearestUnits_mod (num den : Nat) :
    nearestUnits num den % spacing (nearestUnits num den) = 0 := by
  apply mul_spacing_mod
  have hdiv : num / (den * spacing (num / den)) = num / den / spacing (num / den) :=
    (Nat.div_div_eq_div_mul ..).symm
  have hlt := div_spacing_lt (num / den)
  have hle := nearest_le num (den * spacing (num / den))
  omega

theorem pow_two_pos (n : Nat) : 0 < Nat.pow 2 n :=
  Nat.two_pow_pos n

theorem spacing_pos (units : Nat) : 0 < spacing units :=
  pow_two_pos _

theorem spacing_le {n : Nat} (h : 0 < n) : spacing n ≤ n :=
  Nat.le_trans (Nat.pow_le_pow_right (by decide) (Nat.sub_le _ _))
    (Nat.log2_self_le (Nat.ne_of_gt h))

theorem div_le_nearest (num den : Nat) : num / den ≤ nearest num den := by
  simp only [nearest]
  split
  · exact Nat.le_refl _
  · split <;> omega

theorem nearestUnits_pos {n : Nat} (h : 0 < n) : 0 < nearestUnits n 1 := by
  have hquotient : 0 < n / (1 * spacing (n / 1)) := by
    rw [Nat.div_one, Nat.one_mul]
    exact Nat.div_pos (spacing_le h) (spacing_pos n)
  exact Nat.mul_pos (Nat.lt_of_lt_of_le hquotient (div_le_nearest _ _)) (spacing_pos _)

theorem overflowUnits_pos : 0 < overflowUnits := by
  unfold overflowUnits
  exact pow_two_pos _

theorem unitsPerOne_pos : 0 < unitsPerOne := by
  unfold unitsPerOne
  exact pow_two_pos _

theorem fits_zero : Fits 0 :=
  ⟨Nat.zero_mod _, overflowUnits_pos⟩

namespace Double

def ofRatio (negative : Bool) (num den : Nat) : Double :=
  if h : nearestUnits num den < overflowUnits then
    .finite negative (nearestUnits num den) ⟨nearestUnits_mod num den, h⟩
  else .infinity negative

def ofUnits (negative : Bool) (units : Nat) : Double :=
  ofRatio negative units 1

def ofNat (n : Nat) : Double :=
  ofUnits false (n * unitsPerOne)

def ofInt (n : Int) : Double :=
  ofUnits (decide (n < 0)) (n.natAbs * unitsPerOne)

def zeroOf (negative : Bool) : Double :=
  .finite negative 0 fits_zero

def zero : Double := zeroOf false

def one : Double := ofNat 1

def half : Double := ofRatio false unitsPerOne 2

def isNegative : Double → Bool
  | .nan => false
  | .infinity negative => negative
  | .finite negative _ _ => negative

def isZero : Double → Bool
  | .finite _ units _ => units == 0
  | _ => false

def isNaN : Double → Bool
  | .nan => true
  | _ => false

def isInfinite : Double → Bool
  | .infinity _ => true
  | _ => false

def isFinite : Double → Bool
  | .finite .. => true
  | _ => false

theorem isZero_ofUnits (negative : Bool) {units : Nat} (h : 0 < units) :
    (ofUnits negative units).isZero = false := by
  unfold ofUnits ofRatio
  split
  · simpa [isZero] using Nat.ne_of_gt (nearestUnits_pos h)
  · rfl

def isWhole : Double → Bool
  | .finite _ units _ => units % unitsPerOne == 0
  | _ => false

def withSign (negative : Bool) : Double → Double
  | .nan => .nan
  | .infinity _ => .infinity negative
  | .finite _ units fits => .finite negative units fits

def neg (x : Double) : Double :=
  x.withSign (!x.isNegative)

def abs (x : Double) : Double :=
  x.withSign false

def copySign (x y : Double) : Double :=
  x.withSign y.isNegative

def signedUnits (negative : Bool) (units : Nat) : Int :=
  if negative then -units else units

def sameNumber : Double → Double → Bool
  | .infinity s, .infinity t => s == t
  | .finite s a _, .finite t b _ => signedUnits s a == signedUnits t b
  | _, _ => false

def magnitudeAtLeast (n : Nat) : Double → Bool
  | .nan => false
  | .infinity _ => true
  | .finite _ units _ => decide (n * unitsPerOne ≤ units)

def wholePart : Double → Nat
  | .finite _ units _ => units / unitsPerOne
  | _ => 0

def add : Double → Double → Double
  | .nan, _ => .nan
  | _, .nan => .nan
  | .infinity s, .infinity t => if s = t then .infinity s else .nan
  | .infinity s, .finite .. => .infinity s
  | .finite .., .infinity t => .infinity t
  | .finite s a _, .finite t b _ =>
    let sum := signedUnits s a + signedUnits t b
    if sum = 0 then zeroOf (s && t) else ofUnits (decide (sum < 0)) sum.natAbs

def sub (x y : Double) : Double :=
  add x y.neg

def mul : Double → Double → Double
  | .nan, _ => .nan
  | _, .nan => .nan
  | .infinity s, .infinity t => .infinity (s ^^ t)
  | .infinity s, .finite t b _ => if b = 0 then .nan else .infinity (s ^^ t)
  | .finite s a _, .infinity t => if a = 0 then .nan else .infinity (s ^^ t)
  | .finite s a _, .finite t b _ => ofRatio (s ^^ t) (a * b) unitsPerOne

def div (x y : Double) (_ : y.isZero = false) : Double :=
  match x, y with
  | .nan, _ => .nan
  | _, .nan => .nan
  | .infinity _, .infinity _ => .nan
  | .infinity s, .finite t _ _ => .infinity (s ^^ t)
  | .finite s _ _, .infinity t => zeroOf (s ^^ t)
  | .finite s a _, .finite t b _ => ofRatio (s ^^ t) (a * unitsPerOne) b

def rem : Double → Double → Double
  | .nan, _ => .nan
  | _, .nan => .nan
  | .infinity _, _ => .nan
  | .finite s a fits, .infinity _ => .finite s a fits
  | .finite s a _, .finite _ b _ => if b = 0 then .nan else ofUnits s (a % b)

end Double

end PolishCalc
