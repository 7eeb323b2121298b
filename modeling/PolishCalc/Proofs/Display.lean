import PolishCalc.Proofs.Reset
import PolishCalc.Proofs.Words

namespace PolishCalc

namespace Decimal

theorem lt_leadingExponent {units : Nat} (h : 0 < units) :
    units * 10 ^ (-(leadingExponent units + 1)).toNat <
      unitsPerOne * 10 ^ (leadingExponent units + 1).toNat := by
  rw [leadingExponent]
  split
  · have hdigits := lt_pow_length_toDigits (units / unitsPerOne)
    generalize (Nat.toDigits 10 (units / unitsPerOne)).length = length at hdigits ⊢
    rw [Int.sub_add_cancel, Int.toNat_natCast, Int.toNat_of_nonpos (by omega), Nat.pow_zero,
      Nat.mul_one, Nat.mul_comm]
    exact Nat.lt_mul_of_div_lt hdigits unitsPerOne_pos
  · rename_i hlt
    have hratio : 0 < (unitsPerOne - 1) / units := Nat.div_pos (by omega) h
    have hdigits := pow_length_toDigits_le hratio
    have hlength := @Nat.length_toDigits_pos 10 ((unitsPerOne - 1) / units)
    generalize (Nat.toDigits 10 ((unitsPerOne - 1) / units)).length = length at hdigits hlength ⊢
    have hdown : (-(-(length : Int) + 1)).toNat = length - 1 := by omega
    have hup : (-(length : Int) + 1).toNat = 0 := by omega
    rw [hdown, hup, Nat.pow_zero, Nat.mul_one]
    have hle := (Nat.le_div_iff_mul_le h).1 hdigits
    rw [Nat.mul_comm] at hle
    have hpos := unitsPerOne_pos
    omega

theorem gridRatio_div_lt {units : Nat} (h : 0 < units) (n : Nat) :
    (gridRatio units (leadingExponent units - n)).1 /
      (gridRatio units (leadingExponent units - n)).2 < 10 ^ (n + 1) := by
  have hlead := lt_leadingExponent h
  generalize leadingExponent units = lead at hlead ⊢
  rw [gridRatio_eq]
  dsimp only
  have hexponents : (lead + 1).toNat + (-(lead - n)).toNat =
      n + 1 + (lead - n).toNat + (-(lead + 1)).toNat := by omega
  rw [Nat.div_lt_iff_lt_mul (Nat.mul_pos unitsPerOne_pos (Nat.pow_pos (by decide)))]
  apply Nat.lt_of_mul_lt_mul_right (a := 10 ^ (-(lead + 1)).toNat)
  calc units * 10 ^ (-(lead - n)).toNat * 10 ^ (-(lead + 1)).toNat
      = units * 10 ^ (-(lead + 1)).toNat * 10 ^ (-(lead - n)).toNat := Nat.mul_right_comm ..
    _ < unitsPerOne * 10 ^ (lead + 1).toNat * 10 ^ (-(lead - n)).toNat :=
        Nat.mul_lt_mul_of_pos_right hlead (Nat.pow_pos (by decide))
    _ = unitsPerOne * 10 ^ (n + 1 + (lead - n).toNat + (-(lead + 1)).toNat) := by
        rw [← hexponents]
        ring
    _ = 10 ^ (n + 1) * (unitsPerOne * 10 ^ (lead - n).toNat) * 10 ^ (-(lead + 1)).toNat := by ring

theorem onGrid?_bounds {units : Nat} {exponent : Int} {d : Decimal}
    (h : onGrid? units exponent = some d) : d.exponent = exponent ∧
      d.digits ≤ (gridRatio units exponent).1 / (gridRatio units exponent).2 + 1 := by
  have hnear := nearest_le (gridRatio units exponent).1 (gridRatio units exponent).2
  simp only [onGrid?] at h
  generalize (gridRatio units exponent).1 / (gridRatio units exponent).2 = low at h hnear ⊢
  generalize nearest (gridRatio units exponent).1 (gridRatio units exponent).2 = near at h hnear
  have hfar : (if near = low then low + 1 else low) ≤ low + 1 := by
    split <;> omega
  generalize (if near = low then low + 1 else low) = far at h hfar
  split at h
  · obtain rfl := Option.some.inj h
    exact ⟨rfl, hnear⟩
  split at h
  · obtain rfl := Option.some.inj h
    exact ⟨rfl, hfar⟩
  · cases h

theorem exists_shortest_bounds {units : Nat} (h : 0 < units) : ∃ n < enoughDigits,
    (shortest units).exponent = leadingExponent units - n ∧
      (shortest units).digits ≤ 10 ^ (n + 1) := by
  simp only [shortest]
  cases hfound : (List.range enoughDigits).findSome?
    fun n : Nat => onGrid? units (leadingExponent units - n) with
  | some d =>
    obtain ⟨n, hn, hgrid⟩ := List.exists_of_findSome?_eq_some hfound
    obtain ⟨hexponent, hdigits⟩ := onGrid?_bounds hgrid
    have hlt := gridRatio_div_lt h n
    exact ⟨n, List.mem_range.1 hn, hexponent, by rw [Option.getD_some]; omega⟩
  | none =>
    have hlt := gridRatio_div_lt h (enoughDigits - 1)
    exact ⟨enoughDigits - 1, by decide, rfl, (nearest_le _ _).trans hlt⟩

theorem strip_bounds (fuel : Nat) (d : Decimal) : (d.strip fuel).digits ≤ d.digits ∧
    d.exponent ≤ (d.strip fuel).exponent ∧ (d.strip fuel).exponent ≤ d.exponent + fuel := by
  induction fuel generalizing d with
  | zero => simp [strip]
  | succ fuel ih =>
    rw [strip]
    split
    · obtain ⟨hdigits, hlow, hhigh⟩ := ih ⟨d.digits / 10, d.exponent + 1⟩
      dsimp only at hdigits hlow hhigh
      have := Nat.div_le_self d.digits 10
      omega
    · omega

theorem strip_lt {d : Decimal} (h : d.digits ≤ 10 ^ enoughDigits) :
    (d.strip enoughDigits).digits < 10 ^ enoughDigits := by
  rcases Nat.eq_or_lt_of_le h with heq | hlt
  · have hstrip : d.strip enoughDigits =
        strip (enoughDigits - 1) ⟨d.digits / 10, d.exponent + 1⟩ :=
      if_pos (by rw [heq]; decide)
    calc (d.strip enoughDigits).digits
        ≤ d.digits / 10 := hstrip ▸ (strip_bounds (enoughDigits - 1) _).1
      _ < 10 ^ enoughDigits := by
          rw [heq]
          decide
  · exact Nat.lt_of_le_of_lt (strip_bounds _ d).1 hlt

theorem leadingExponent_bounds {units : Nat} (h : units < overflowUnits) :
    -324 ≤ leadingExponent units ∧ leadingExponent units ≤ 308 := by
  have hone := unitsPerOne_pos
  rw [leadingExponent]
  split
  · have hlarge : overflowUnits ≤ 10 ^ 309 * unitsPerOne := by decide +kernel
    have hlt : units / unitsPerOne < 10 ^ 309 :=
      (Nat.div_lt_iff_lt_mul hone).2 (h.trans_le hlarge)
    have hlength := (Nat.length_toDigits_le_iff (by decide) (by decide)).2 hlt
    omega
  · have hsmall : unitsPerOne ≤ 10 ^ 324 := by decide +kernel
    have hle := Nat.div_le_self (unitsPerOne - 1) units
    have hlt : (unitsPerOne - 1) / units < 10 ^ 324 := by
      refine Nat.lt_of_le_of_lt hle (Nat.lt_of_lt_of_le ?_ hsmall)
      omega
    have hlength := (Nat.length_toDigits_le_iff (by decide) (by decide)).2 hlt
    omega

theorem strip_shortest {units : Nat} (hpos : 0 < units) (h : units < overflowUnits) :
    let d := (shortest units).strip enoughDigits
    let digits := Nat.toDigits 10 d.digits
    digits.length ≤ 17 ∧ (d.exponent + digits.length - 1).natAbs < 1000 := by
  obtain ⟨n, hn, hexponent, hdigits⟩ := exists_shortest_bounds hpos
  obtain ⟨-, hlow, hhigh⟩ := strip_bounds enoughDigits (shortest units)
  obtain ⟨hleadLow, hleadHigh⟩ := leadingExponent_bounds h
  have hlarge : 10 ^ (n + 1) ≤ 10 ^ enoughDigits := Nat.pow_le_pow_right (by decide) hn
  have hlength := (Nat.length_toDigits_le_iff (by decide) (by decide)).2
    (strip_lt (hdigits.trans hlarge))
  have hlengthPos := @Nat.length_toDigits_pos 10 ((shortest units).strip enoughDigits).digits
  unfold enoughDigits at *
  dsimp only
  omega

end Decimal

namespace DecimalStyle

theorem length_exponentText {exponent : Int} (h : exponent.natAbs < 1000) :
    (plain.exponentText exponent).length ≤ 5 := by
  have hlength := (Nat.length_toDigits_le_iff (show 1 < 10 by decide) (show 0 < 3 by decide)).2 h
  have hwidth : plain.exponentWidth = 2 := rfl
  simp only [exponentText, Text.padLeft, hwidth, List.length_cons, List.length_append,
    List.length_replicate]
  omega

theorem length_positional {digits : Text} (hdigits : digits.length ≤ 17) {lead : Int}
    (hlow : -4 ≤ lead) (hhigh : lead < 16) : (positional digits lead).length ≤ 23 := by
  cases lead with
  | negSucc e =>
    simp only [positional, List.length_cons, List.length_append, List.length_replicate]
    omega
  | ofNat lead =>
    have hlead : lead < 16 := Int.ofNat_lt.1 hhigh
    rw [positional]
    split
    · simp only [List.length_append, List.length_replicate, List.length_cons, List.length_nil]
      omega
    · simp only [List.length_append, List.length_take, List.length_cons, List.length_drop]
      omega

theorem length_layout {digits : Text} (hdigits : digits.length ≤ 17) {lead : Int}
    (hlead : lead.natAbs < 1000) : (plain.layout digits lead).length ≤ 23 := by
  rw [layout]
  split
  · rename_i hpositional
    exact length_positional hdigits hpositional.1 hpositional.2
  · have hexponent := length_exponentText hlead
    have hpoint : (if digits.length ≤ 1 then [] else '.' :: digits.drop 1).length ≤
        digits.length := by
      split
      · simp
      · simp only [List.length_cons, List.length_drop]
        omega
    simp only [List.length_append, List.length_take]
    omega

end DecimalStyle

namespace Double

theorem length_signText (negative : Bool) : (Literal.signText negative).length ≤ 1 := by
  cases negative <;> decide

theorem length_text {x : Double} (h : x.isFinite = true) : x.text.length ≤ 24 := by
  obtain ⟨negative, units, fits, rfl⟩ := exists_of_isFinite h
  have hsign := length_signText negative
  have hbody : (if units = 0 then "0.0".toList
      else DecimalStyle.plain.write (Decimal.shortest units)).length ≤ 23 := by
    split
    · decide
    · rename_i hne
      obtain ⟨hdigits, hlead⟩ := Decimal.strip_shortest (Nat.pos_of_ne_zero hne) fits.2
      exact DecimalStyle.length_layout hdigits hlead
  rw [text, List.length_append]
  exact Nat.add_le_add hsign hbody

theorem length_integerText {n : Int} (h : n.natAbs < 10 ^ 16) : (integerText n).length ≤ 17 := by
  have hlength := (Nat.length_toDigits_le_iff (show 1 < 10 by decide) (show 0 < 16 by decide)).2 h
  have hsign := length_signText (decide (n < 0))
  rw [integerText_eq, List.length_append]
  omega

theorem length_display {x : Double} (h : x.isFinite = true) : x.display.length ≤ 24 := by
  rw [display]
  split
  · rename_i hwhole
    refine (length_integerText ?_).trans (by decide)
    obtain ⟨negative, units, fits, rfl⟩ := exists_of_isFinite h
    have hsmall : ¬ (finite negative units fits).magnitudeAtLeast longWholeFrom = true := by
      simpa using ((Bool.and_eq_true ..).mp hwhole).2
    rw [magnitudeAtLeast_finite] at hsmall
    have habs : (Literal.signed negative (units / unitsPerOne)).natAbs = units / unitsPerOne :=
      natAbs_signedUnits negative _
    change (Literal.signed negative (units / unitsPerOne)).natAbs < 10 ^ 16
    rw [habs]
    exact (Nat.div_lt_iff_lt_mul unitsPerOne_pos).2 (Nat.not_le.1 hsmall)
  · exact length_text h

theorem sameNumber_iff {x y : Double} (hx : x.isFinite = true) (hy : y.isFinite = true) :
    x.sameNumber y = true ↔ x.dropZeroSign = y.dropZeroSign := by
  obtain ⟨s, a, ha, rfl⟩ := exists_of_isFinite hx
  obtain ⟨t, b, hb, rfl⟩ := exists_of_isFinite hy
  have hunits : signedUnits s a = signedUnits t b ↔ a = b ∧ (a = 0 ∨ s = t) := by
    cases s <;> cases t <;> simp [signedUnits] <;> omega
  change (signedUnits s a == signedUnits t b) = true ↔ _
  rw [beq_iff_eq, hunits]
  rcases Nat.eq_zero_or_pos a with rfl | hapos
  · have hzero : (finite s 0 ha).dropZeroSign = zero := rfl
    rw [hzero]
    rcases Nat.eq_zero_or_pos b with rfl | hbpos
    · simp [dropZeroSign, isZero]
    · have hb0 := Nat.ne_of_gt hbpos
      rw [dropZeroSign_of_ne hb hb0]
      simp [zero, zeroOf, hb0.symm]
  · have ha0 := Nat.ne_of_gt hapos
    rw [dropZeroSign_of_ne ha ha0]
    rcases Nat.eq_zero_or_pos b with rfl | hbpos
    · have hzero : (finite t 0 hb).dropZeroSign = zero := rfl
      simp [hzero, zero, zeroOf, ha0]
    · rw [dropZeroSign_of_ne hb (Nat.ne_of_gt hbpos)]
      simp [ha0, and_comm]

theorem display_dropZeroSign {x : Double} (h : x.isFinite = true) :
    x.dropZeroSign.display = x.display := by
  obtain ⟨negative, units, fits, rfl⟩ := exists_of_isFinite h
  rcases Nat.eq_zero_or_pos units with rfl | hpos
  · have hshown (s : Bool) : (zeroOf s).display = ['0'] := by
      cases s <;> decide +kernel
    exact (hshown false).trans (hshown negative).symm
  · rw [dropZeroSign_of_ne fits (Nat.ne_of_gt hpos)]

end Double

theorem Text.collapse_eq_self {text : Text} (h : ∀ c ∈ text, isBlank c = false) :
    text.collapse = text := by
  induction text with
  | nil => rfl
  | cons c text ih =>
    obtain ⟨hc, htext⟩ := List.forall_mem_cons.1 h
    rw [collapse_solid hc, ih htext]

theorem Text.normalize_of_isOperand {text : Text} (h : IsOperand text) {maxLength : Int}
    (hlength : text.length ≤ maxLength) : text.normalize maxLength = .ok text := by
  obtain ⟨⟨hne, hsolid⟩, hcomma, -⟩ := h
  have hblank : ∀ c ∈ text, isBlank c = false := fun c hc =>
    (Bool.or_eq_false_iff.1 (hsolid c hc)).1
  have htrimmed : text.Trimmed :=
    ⟨fun c hc => hblank c (List.mem_of_mem_head? hc),
      fun c hc => hblank c (List.mem_of_mem_getLast? hc)⟩
  rw [normalize, if_neg (Int.not_lt.2 hlength), pointForComma_eq_self hcomma,
    collapse_eq_self hblank, htrimmed.trim_eq]
  exact if_neg (by simpa using hne)

theorem lexemes_display (x : Double) : x.display.lexemes = [x.display] := by
  have hword := Text.Spaced.word (isOperand_display x).1 (by simp) .nil
  rw [List.append_nil] at hword
  exact hword.lexemes_eq

theorem display_notMem_constantNames {x : Double} (h : x.isFinite = true) :
    x.display ∉ constantNames := by
  obtain ⟨-, c, hc, hdigit⟩ := Double.isNumeral_display h
  intro hname
  simp [Text.not_isDigit_constant hname hc] at hdigit

/-- A displayed number is a line of at most 24 characters that normalizing leaves as it is, where it
is not too long. It is a single lexeme, which is neither an operator nor a constant and reads as the
number. Numbers that are displayed alike are the same. -/
theorem display_readBack {x : Double} (hx : x.isFinite = true) :
    x.display.length ≤ 24 ∧
      (∀ maxLength : Int, x.display.length ≤ maxLength →
        x.display.normalize maxLength = .ok x.display) ∧
      (x.display.lexemes = [x.display] ∧ Token.ofLine x.display = [.operand x.display]) ∧
      (Operator.ofText? x.display = none ∧ x.display ∉ constantNames) ∧
      (∃ y, Double.readOperand? x.display = some y ∧ y.sameNumber x = true) ∧
      ∀ y : Double, y.isFinite = true → (x.display = y.display ↔ x.sameNumber y = true) := by
  have hoperand := isOperand_display x
  have hlexemes := lexemes_display x
  have htokens : Token.ofLine x.display = [.operand x.display] := by
    rw [Token.ofLine, hlexemes, List.map_singleton, Token.ofText_operand hoperand]
  have hsame : x.dropZeroSign.sameNumber x = true :=
    (Double.sameNumber_iff (Double.isFinite_dropZeroSign hx) hx).2 (Double.dropZeroSign_idem x)
  refine ⟨Double.length_display hx, fun _ => Text.normalize_of_isOperand hoperand,
    ⟨hlexemes, htokens⟩, ⟨hoperand.2.2, display_notMem_constantNames hx⟩,
    ⟨_, Double.readOperand?_display hx, hsame⟩, fun y hy => ?_⟩
  rw [Double.sameNumber_iff hx hy]
  constructor
  · intro hdisplay
    have hread := Double.readOperand?_display hx
    rw [hdisplay, Double.readOperand?_display hy] at hread
    exact (Option.some.inj hread).symm
  · intro hnumber
    rw [← Double.display_dropZeroSign hx, hnumber, Double.display_dropZeroSign hy]

theorem display_readBack_least :
    let x := Double.ofDecimal true 17976931348623157 292
    let shown : Text := "-1.7976931348623157e+308".toList
    (x.isFinite = true ∧ x.display = shown) ∧ shown.normalize 24 = .ok shown ∧
      Token.ofLine shown = [.operand shown] ∧
      ∃ y, Double.readOperand? shown = some y ∧ y.sameNumber x = true := by
  intro x shown
  have hfinite : x.isFinite = true := by decide +kernel
  have hshown : x.display = shown := by decide +kernel
  obtain ⟨-, hnormal, ⟨-, htokens⟩, -, hread, -⟩ := display_readBack hfinite
  rw [hshown] at hnormal htokens hread
  exact ⟨⟨hfinite, hshown⟩, hnormal 24 (by decide), htokens, hread⟩

end PolishCalc
