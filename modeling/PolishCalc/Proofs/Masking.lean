import PolishCalc.Proofs.Characters

namespace PolishCalc

namespace Double

variable {x y : Double}

theorem isFinite_add_eq_false (hx : x.isFinite = false) (hy : y.isFinite = true) :
    (x.add y).isFinite = false := by
  obtain ⟨t, b, hb, rfl⟩ := exists_of_isFinite hy
  cases x with
  | nan => rfl
  | infinity s => rfl
  | finite s a ha => cases hx

theorem isFinite_mul_eq_false (hx : x.isFinite = false) (hy : y.isFinite = true) :
    (x.mul y).isFinite = false := by
  obtain ⟨t, b, hb, rfl⟩ := exists_of_isFinite hy
  cases x with
  | nan => rfl
  | infinity s =>
    rw [mul]
    split <;> rfl
  | finite s a ha => cases hx

theorem isFinite_div_eq_false (hx : x.isFinite = false) (hy : y.isFinite = true)
    (h : y.isZero = false) : (x.div y h).isFinite = false := by
  obtain ⟨t, b, hb, rfl⟩ := exists_of_isFinite hy
  cases x with
  | nan => rfl
  | infinity s => rfl
  | finite s a ha => cases hx

theorem isZero_div (hx : x.isZero = true) (hy : y.isFinite = true) (h : y.isZero = false) :
    (x.div y h).isZero = true := by
  obtain ⟨t, b, hb, rfl⟩ := exists_of_isFinite hy
  have hpos : 0 < b := Nat.pos_of_ne_zero (by simpa [isZero] using h)
  cases x with
  | finite s a ha =>
    obtain rfl : a = 0 := by simpa [isZero] using hx
    change (ofRatio (s ^^ t) (0 * unitsPerOne) b).isZero = true
    rw [Nat.zero_mul, ofRatio_zero hpos]
    rfl
  | _ => cases hx

theorem isFinite_of_isZero (hx : x.isZero = true) : x.isFinite = true := by
  cases x with
  | finite s a ha => rfl
  | _ => cases hx

theorem pow_of_isZero (x : Double) (hy : y.isZero = true) : x.pow y = one :=
  if_pos (.inl hy)

theorem one_pow (y : Double) : one.pow y = one :=
  if_pos (.inr rfl)

theorem nan_pow (hy : y.isZero = false) : nan.pow y = nan := by
  have hone : nan ≠ one := by decide +kernel
  rw [pow, if_neg (by simp [hy, hone])]

def zeroOrInfinity (vanished : Bool) : Double :=
  if vanished then zero else .infinity false

theorem zeroOrInfinity_pow (vanished : Bool) (hy : y.isFinite = true) (hzero : y.isZero = false) :
    (zeroOrInfinity vanished).pow y = zeroOrInfinity (vanished ^^ y.isNegative) := by
  obtain ⟨t, b, hb, rfl⟩ := exists_of_isFinite hy
  have hone : zeroOrInfinity vanished ≠ one := by
    revert vanished
    decide +kernel
  have hgeneral : ¬ ((finite t b hb).isZero = true ∨ zeroOrInfinity vanished = one) := by
    simp [hzero, hone]
  refine (if_neg hgeneral).trans ?_
  cases vanished <;> cases t <;> rfl

theorem pow_eq_of_isFinite_eq_false (hx : x.isFinite = true) (hy : y.isFinite = true)
    (h : (x.pow y).isFinite = false) : x.pow y = nan ∨ x.pow y = zeroOrInfinity false := by
  obtain ⟨s, a, ha, rfl⟩ := exists_of_isFinite hx
  obtain ⟨t, b, hb, rfl⟩ := exists_of_isFinite hy
  generalize hz : (finite s a ha).pow (finite t b hb) = z at h ⊢
  rw [pow.eq_def] at hz
  dsimp only at hz
  split at hz
  · subst hz
    exact absurd h (by decide +kernel)
  split at hz
  · split at hz
    · exact .inr hz.symm
    · subst hz
      cases h
  split at hz
  · exact .inr hz.symm
  rename_i hbounded
  split at hz
  · exact .inl hz.symm
  subst hz
  rw [isFinite_withSign] at h
  generalize powPositive a ha (finite t b hb) = magnitude at h hbounded ⊢
  cases magnitude with
  | nan => exact .inl rfl
  | infinity negative => exact absurd rfl hbounded
  | finite negative units fits => cases h

end Double

namespace Operator

def Masks (op : Operator) (x : Double) (rest : List Double) : Prop :=
  match op with
  | divide | intDivide => ∃ c ∈ rest, c.isZero = true
  | power => (∃ c ∈ rest, c.isZero = true) ∨
      (x.isInfinite = true ∧ rest.countP Double.isNegative % 2 = 1)
  | _ => False

instance (op : Operator) (x : Double) (rest : List Double) : Decidable (op.Masks x rest) :=
  match op with
  | divide | intDivide => inferInstanceAs (Decidable (∃ c ∈ rest, c.isZero = true))
  | power => inferInstanceAs (Decidable (_ ∨ _))
  | add | subtract | multiply | modulo | random => inferInstanceAs (Decidable False)

variable {op : Operator} {cs : List Double} (source : Source) (earlier : List Request)

theorem foldRest_cons (hop : op ≠ random) {x c y : Double}
    (h : op.compute x (.double c) = .ok y) (rest : List Operand) :
    foldRest source op x (.double c :: rest) earlier = foldRest source op y rest earlier := by
  rw [foldRest, step_eq hop, h]
  rfl

theorem foldRest_keeps (hop : op ≠ random) {V : Double → Prop}
    (hkeep : ∀ c ∈ cs, ∀ x, V x → ∃ y, op.compute x (.double c) = .ok y ∧ V y)
    {x : Double} (hx : V x) :
    ∃ y, foldRest source op x (cs.map .double) earlier = (.ok y, earlier) ∧ V y := by
  induction cs generalizing x with
  | nil => exact ⟨x, rfl, hx⟩
  | cons c cs ih =>
    obtain ⟨hc, hcs⟩ := List.forall_mem_cons.1 hkeep
    obtain ⟨y, hy, hv⟩ := hc x hx
    rw [List.map_cons, foldRest_cons source earlier hop hy]
    exact ih hcs hv

theorem foldRest_reaches (hop : op ≠ random) {V : Double → Prop}
    (hkeep : ∀ c ∈ cs, ∀ x, V x → ∃ y, op.compute x (.double c) = .ok y ∧ V y)
    (htotal : ∀ c ∈ cs, ∀ x, ∃ y, op.compute x (.double c) = .ok y ∧ (c.isZero = true → V y))
    (hzero : ∃ c ∈ cs, c.isZero = true) (x : Double) :
    ∃ y, foldRest source op x (cs.map .double) earlier = (.ok y, earlier) ∧ V y := by
  induction cs generalizing x with
  | nil => simp at hzero
  | cons c cs ih =>
    obtain ⟨-, hkeeps⟩ := List.forall_mem_cons.1 hkeep
    obtain ⟨hc, hothers⟩ := List.forall_mem_cons.1 htotal
    obtain ⟨y, hy, hv⟩ := hc x
    rw [List.map_cons, foldRest_cons source earlier hop hy]
    rcases (List.exists_mem_cons_iff ..).1 hzero with hzero | hzero
    · exact foldRest_keeps source earlier hop hkeeps (hv hzero)
    · exact ih hkeeps hothers hzero y

theorem compute_linear (hop : op = add ∨ op = subtract ∨ op = multiply) {x c : Double}
    (hx : x.isFinite = false) (hc : c.isFinite = true) :
    ∃ y, op.compute x (.double c) = .ok y ∧ y.isFinite = false := by
  rcases hop with rfl | rfl | rfl
  · exact ⟨_, rfl, Double.isFinite_add_eq_false hx hc⟩
  · exact ⟨_, rfl, Double.isFinite_add_eq_false hx ((Double.isFinite_withSign _ c).trans hc)⟩
  · exact ⟨_, rfl, Double.isFinite_mul_eq_false hx hc⟩

theorem compute_zero_divisor (hop : op = divide ∨ op = intDivide) (x : Double) {c : Double}
    (hc : c.isZero = true) : op.compute x (.double c) = .ok .zero := by
  have hnot : ¬ c.isZero = false := by simp [hc]
  rcases hop with rfl | rfl
  · exact congrArg Except.ok (dif_neg hnot)
  · exact dif_neg hnot

theorem truncatedQuotient_of_isZero {x c : Double} {h : c.isZero = false}
    (hx : (x.div c h).isZero = true) : truncatedQuotient x c h = .ok .zero := by
  have hinteger : Operand.integerToDouble 0 = .ok .zero := by
    rw [Operand.integerToDouble, Double.ofInt_zero]
    rfl
  rw [truncatedQuotient, if_pos (Double.isFinite_of_isZero hx), Double.truncate_of_isZero hx,
    ok_bind, hinteger]

theorem compute_zero_dividend (hop : op = divide ∨ op = intDivide) {x c : Double}
    (hx : x.isZero = true) (hc : c.isFinite = true) :
    ∃ y, op.compute x (.double c) = .ok y ∧ y.isZero = true := by
  by_cases hzero : c.isZero = true
  · exact ⟨.zero, compute_zero_divisor hop x hzero, rfl⟩
  replace hzero : c.isZero = false := Bool.not_eq_true _ ▸ hzero
  have hquotient := Double.isZero_div hx hc hzero
  rcases hop with rfl | rfl
  · exact ⟨_, congrArg Except.ok (dif_pos hzero), hquotient⟩
  · exact ⟨.zero, (dif_pos hzero).trans (truncatedQuotient_of_isZero hquotient), rfl⟩

theorem compute_quotient (hop : op = divide ∨ op = intDivide) {x c : Double}
    (hx : x.isFinite = false) (hc : c.isFinite = true) (hzero : c.isZero = false) :
    ∃ y, op.compute x (.double c) = .ok y ∧ y.isFinite = false := by
  have hquotient := Double.isFinite_div_eq_false hx hc hzero
  rcases hop with rfl | rfl
  · exact ⟨_, congrArg Except.ok (dif_pos hzero), hquotient⟩
  · refine ⟨_, (dif_pos hzero).trans ?_, hquotient⟩
    rw [truncatedQuotient, if_neg (by simp [hquotient])]

theorem foldRest_zeroOrInfinity (hcs : ∀ c ∈ cs, c.isFinite = true)
    (hzero : ∀ c ∈ cs, c.isZero = false) (vanished : Bool) :
    foldRest source power (.zeroOrInfinity vanished) (cs.map .double) earlier =
      (.ok (.zeroOrInfinity (vanished ^^ decide (cs.countP Double.isNegative % 2 = 1))),
        earlier) := by
  induction cs generalizing vanished with
  | nil =>
    rw [List.countP_nil, decide_eq_false (by decide), Bool.xor_false]
    rfl
  | cons c cs ih =>
    obtain ⟨hc, hcs⟩ := List.forall_mem_cons.1 hcs
    obtain ⟨hcz, hzero⟩ := List.forall_mem_cons.1 hzero
    have hstep : power.compute (.zeroOrInfinity vanished) (.double c) =
        .ok (.zeroOrInfinity (vanished ^^ c.isNegative)) :=
      congrArg Except.ok (Double.zeroOrInfinity_pow vanished hc hcz)
    rw [List.map_cons, foldRest_cons source earlier (by decide) hstep, ih hcs hzero, Bool.xor_assoc]
    congr 5
    rw [List.countP_cons]
    cases c.isNegative with
    | false => simp
    | true =>
      rw [if_pos rfl, Bool.true_xor, ← decide_not]
      exact decide_eq_decide.2 (by omega)

theorem foldRest_quotient (hop : op = divide ∨ op = intDivide) (hcs : ∀ c ∈ cs, c.isFinite = true)
    {x : Double} (hx : x.isFinite = false) :
    ∃ y, foldRest source op x (cs.map .double) earlier = (.ok y, earlier) ∧
      (y.isFinite = true ↔ ∃ c ∈ cs, c.isZero = true) := by
  have hrandom : op ≠ random := by rcases hop with rfl | rfl <;> decide
  by_cases hzero : ∃ c ∈ cs, c.isZero = true
  · have htotal (c) (hc : c ∈ cs) (x : Double) :
        ∃ y, op.compute x (.double c) = .ok y ∧ (c.isZero = true → y.isZero = true) := by
      by_cases hcz : c.isZero = true
      · exact ⟨.zero, compute_zero_divisor hop x hcz, fun _ => rfl⟩
      · have hcarries : op.Carries x := by rcases hop with rfl | rfl <;> exact nofun
        obtain ⟨y, hy, -⟩ := exists_compute hcarries (isInfinite_of_isFinite (hcs c hc))
        exact ⟨y, hy, fun h => absurd h hcz⟩
    obtain ⟨y, hfold, hy⟩ := foldRest_reaches source earlier hrandom
      (fun c hc x hx => compute_zero_dividend hop hx (hcs c hc)) htotal hzero x
    exact ⟨y, hfold, iff_of_true (Double.isFinite_of_isZero hy) hzero⟩
  · have hkeep (c) (hc : c ∈ cs) (x : Double) (hx : x.isFinite = false) :
        ∃ y, op.compute x (.double c) = .ok y ∧ y.isFinite = false :=
      compute_quotient hop hx (hcs c hc) (Bool.not_eq_true _ ▸ fun h => hzero ⟨c, hc, h⟩)
    obtain ⟨y, hfold, hy⟩ := foldRest_keeps source earlier hrandom hkeep hx
    exact ⟨y, hfold, iff_of_false (by simp [hy]) hzero⟩

theorem foldRest_power (hcs : ∀ c ∈ cs, c.isFinite = true) {x : Double}
    (hx : x = .nan ∨ x = .zeroOrInfinity false) :
    ∃ y, foldRest source power x (cs.map .double) earlier = (.ok y, earlier) ∧
      (y.isFinite = true ↔ power.Masks x cs) := by
  by_cases hzero : ∃ c ∈ cs, c.isZero = true
  · have hone (c) (_ : c ∈ cs) (x : Double) (hx : x = .one) :
        ∃ y, power.compute x (.double c) = .ok y ∧ y = .one :=
      ⟨.one, congrArg Except.ok (hx ▸ Double.one_pow c), rfl⟩
    obtain ⟨y, hfold, rfl⟩ := foldRest_reaches source earlier (by decide) hone
      (fun c _ x => ⟨_, rfl, Double.pow_of_isZero x⟩) hzero x
    exact ⟨.one, hfold, iff_of_true (by decide +kernel) (.inl hzero)⟩
  have hnonzero : ∀ c ∈ cs, c.isZero = false := fun c hc =>
    Bool.not_eq_true _ ▸ fun h => hzero ⟨c, hc, h⟩
  rcases hx with rfl | rfl
  · have hnan (c) (hc : c ∈ cs) (x : Double) (hx : x = .nan) :
        ∃ y, power.compute x (.double c) = .ok y ∧ y = .nan :=
      ⟨.nan, congrArg Except.ok (hx ▸ Double.nan_pow (hnonzero c hc)), rfl⟩
    obtain ⟨y, hfold, rfl⟩ := foldRest_keeps source earlier (by decide) hnan rfl
    exact ⟨.nan, hfold, iff_of_false Bool.false_ne_true (by simp [Masks, hzero, Double.isInfinite])⟩
  · refine ⟨_, foldRest_zeroOrInfinity source earlier hcs hnonzero false, ?_⟩
    have hinfinite : (Double.zeroOrInfinity false).isInfinite = true := rfl
    rw [Bool.false_xor, Masks, or_iff_right hzero, and_iff_right hinfinite]
    cases hodd : decide (cs.countP Double.isNegative % 2 = 1) with
    | true => exact iff_of_true rfl (of_decide_eq_true hodd)
    | false => exact iff_of_false Bool.false_ne_true (of_decide_eq_false hodd)

theorem isFinite_of_modulo {a b x : Double} (ha : a.isFinite = true) (hb : b.isFinite = true)
    (hx : modulo.compute a (.double b) = .ok x) : x.isFinite = true := by
  by_cases hzero : b.isZero = true
  · have hcompute : modulo.compute a (.double b) = .ok .zero := if_pos hzero
    obtain rfl := Except.ok.inj (hcompute.symm.trans hx)
    rfl
  · have hcompute : modulo.compute a (.double b) = remainder a b := if_neg hzero
    have hfinite := Double.isFinite_rem ha hb (Bool.not_eq_true _ ▸ hzero)
    rw [hcompute, remainder, isNaN_of_isFinite hfinite] at hx
    exact Except.ok.inj hx ▸ hfinite

theorem foldRest_masks (hop : op ≠ random) {a b x : Double} (ha : a.isFinite = true)
    (hb : b.isFinite = true) (hx : op.compute a (.double b) = .ok x) (hnot : x.isFinite = false)
    (hcs : ∀ c ∈ cs, c.isFinite = true) :
    ∃ y, foldRest source op x (cs.map .double) earlier = (.ok y, earlier) ∧
      (y.isFinite = true ↔ op.Masks x cs) := by
  have hlinear (hlin : op = add ∨ op = subtract ∨ op = multiply) :
      ∃ y, foldRest source op x (cs.map .double) earlier = (.ok y, earlier) ∧
        (y.isFinite = true ↔ False) := by
    obtain ⟨y, hfold, hy⟩ := foldRest_keeps source earlier hop
      (fun c hc x hx => compute_linear hlin hx (hcs c hc)) hnot
    exact ⟨y, hfold, by simp [hy]⟩
  cases op with
  | add => exact hlinear (.inl rfl)
  | subtract => exact hlinear (.inr (.inl rfl))
  | multiply => exact hlinear (.inr (.inr rfl))
  | divide => exact foldRest_quotient source earlier (.inl rfl) hcs hnot
  | intDivide => exact foldRest_quotient source earlier (.inr rfl) hcs hnot
  | power =>
    obtain rfl : a.pow b = x := Except.ok.inj hx
    exact foldRest_power source earlier hcs (Double.pow_eq_of_isFinite_eq_false ha hb hnot)
  | modulo => simp [isFinite_of_modulo ha hb hx] at hnot
  | random => exact absurd rfl hop

theorem isFinite_of_integerToDouble {n : Int} {x : Double}
    (h : Operand.integerToDouble n = .ok x) : x.isFinite = true := by
  have hinfinite := isInfinite_of_integerToDouble h
  rw [Operand.integerToDouble] at h
  split at h
  · cases h
  obtain rfl := Except.ok.inj h
  rw [Double.ofInt, Double.ofUnits, Double.ofRatio] at hinfinite ⊢
  split
  · rfl
  · rename_i hlarge
    rw [dif_neg hlarge] at hinfinite
    cases hinfinite

theorem eq_ok_of_mapError {ε ε' α : Type} {f : ε → ε'} {x : Except ε α} {a : α}
    (h : x.mapError f = .ok a) : x = .ok a := by
  cases x with
  | error e => cases h
  | ok b => exact congrArg Except.ok (Except.ok.inj h)

theorem isFinite_of_drawn {request : Request} {answer : Except Refusal Int} {x : Double}
    (h : drawn request answer = .ok x) : x.isFinite = true := by
  match answer with
  | .error .outOfRange => cases h
  | .error (.broken message) => cases h
  | .ok n => exact isFinite_of_integerToDouble (eq_ok_of_mapError h)

theorem isFinite_of_random {a b x : Double} (ha : a.isFinite = true) (hb : b.isFinite = true)
    {requests : List Request}
    (h : step source random a (.double b) earlier = (.ok x, requests)) : x.isFinite = true := by
  obtain ⟨m, -, hm, -, -⟩ := Double.integerToDouble_truncate ha
  obtain ⟨n, -, hn, -, -⟩ := Double.integerToDouble_truncate hb
  have hrandom : (randomInRange source earlier (.double a) (.double b)).1 = .ok x :=
    congrArg Prod.fst h
  simp only [randomInRange, reduceCtorEq, if_false, randomBounds?_of_isFinite ha hb hm hn]
    at hrandom
  split at hrandom
  · exact isFinite_of_integerToDouble (eq_ok_of_mapError hrandom)
  · exact isFinite_of_drawn hrandom

end Operator

def Outcome.value? : Outcome → Option (Double × List Request)
  | .ok (x, memory) => some (x, memory.requests)
  | .error _ => none

def finite? : Except Failure Double × List Request → Option (Double × List Request)
  | (.ok x, requests) => if x.isFinite then some (x, requests) else none
  | (.error _, _) => none

def Operator.Masked (op : Operator) (a b : Double) (rest : List Double) : Prop :=
  ∃ x, op.compute a (.double b) = .ok x ∧ x.isFinite = false ∧ op.Masks x rest

section

variable {rules : Rules} {op : Operator} {a b : Double} {cs : List Double}

theorem Operator.Masked.exists_step (h : op.Masked a b cs) (source : Source)
    (earlier : List Request) : ∃ x, Operator.step source op a (.double b) earlier =
      (.ok x, earlier) ∧ x.isFinite = false := by
  obtain ⟨x, hx, hnot, hmasks⟩ := h
  have hop : op ≠ .random := by
    rintro rfl
    exact hmasks
  refine ⟨x, ?_, hnot⟩
  rw [Operator.step_eq hop, hx]
  rfl

theorem Pending.value?_reduce (hdigits : Double.mostPlaces < rules.digits) (op : Operator)
    (x y : Double) (rest : List Double) (memory : Memory) :
    Outcome.value? (Pending.reduce rules memory ⟨op, (x :: y :: rest).reverse⟩) =
      finite? (Operator.foldRest rules.source op x (.double y :: rest.map .double)
        memory.requests) := by
  have happly : op.apply rules.source
      ((Pending.complete ⟨op, (x :: y :: rest).reverse⟩ memory.answer).map .double)
        memory.requests =
      Operator.foldRest rules.source op x (.double y :: rest.map .double) memory.requests := by
    rw [Computation.complete_reverse, if_neg (by simp), List.map_cons, Operator.apply,
      if_neg (by simp)]
    rfl
  have hreduces := Pending.reduces rules memory ⟨op, (x :: y :: rest).reverse⟩
  rw [← happly]
  generalize Pending.reduce rules memory ⟨op, (x :: y :: rest).reverse⟩ = outcome at hreduces ⊢
  cases hreduces with
  | empty hempty => simp at hempty
  | failed _ hfold => rw [hfold]; rfl
  | notANumber _ hfold => rw [hfold]; rfl
  | infinite _ hfold => rw [hfold]; rfl
  | unrounded _ _ _ hround => cases (if_pos hdigits).symm.trans hround
  | completed _ hfold hfinite hround =>
    obtain rfl := Except.ok.inj ((if_pos hdigits).symm.trans hround)
    rw [hfold, finite?, if_pos hfinite]
    rfl

theorem Outcome.eq_ok_of_value? {outcome : Outcome} {x : Double} {requests : List Request}
    (h : outcome.value? = some (x, requests)) :
    ∃ memory, memory.requests = requests ∧ outcome = .ok (x, memory) := by
  cases outcome with
  | error stop => cases h
  | ok reduced =>
    obtain ⟨rfl, rfl⟩ := Prod.mk.inj (Option.some.inj h)
    exact ⟨reduced.2, rfl, rfl⟩

theorem Outcome.value?_bind_eq_none {outcome : Outcome} (h : outcome.value? = none)
    (f : Double × Memory → Outcome) : Outcome.value? (outcome.bind f) = none := by
  cases outcome with
  | error stop => rfl
  | ok reduced => cases h

def Pending.reduceNested (rules : Rules) (memory : Memory) (op : Operator) (a b : Double)
    (cs : List Double) : Outcome :=
  (Pending.reduce rules memory ⟨op, [b, a]⟩).bind fun reduced =>
    Pending.reduce rules reduced.2 ⟨op, (reduced.1 :: cs).reverse⟩

theorem Pending.value?_reduce_pair (hdigits : Double.mostPlaces < rules.digits) (op : Operator)
    (a b : Double) (memory : Memory) :
    Outcome.value? (Pending.reduce rules memory ⟨op, [b, a]⟩) =
      finite? (op.step rules.source a (.double b) memory.requests) := by
  refine (Pending.value?_reduce hdigits op a b [] memory).trans ?_
  rw [List.map_nil, Operator.foldRest]
  split <;> rename_i hstep
  · rw [hstep, Operator.foldRest]
  · rw [hstep]

theorem Pending.value?_reduceNested_eq_none (hdigits : Double.mostPlaces < rules.digits)
    {memory : Memory} (h : finite? (op.step rules.source a (.double b) memory.requests) = none)
    (cs : List Double) : (Pending.reduceNested rules memory op a b cs).value? = none :=
  Outcome.value?_bind_eq_none ((Pending.value?_reduce_pair hdigits op a b memory).trans h) _

theorem Pending.value?_reduceNested_of_isFinite (hdigits : Double.mostPlaces < rules.digits)
    {memory : Memory} {x : Double} {requests : List Request}
    (hstep : op.step rules.source a (.double b) memory.requests = (.ok x, requests))
    (hx : x.isFinite = true) (hne : cs ≠ []) :
    (Pending.reduceNested rules memory op a b cs).value? =
      Outcome.value? (Pending.reduce rules memory ⟨op, (a :: b :: cs).reverse⟩) := by
  have hinner := Pending.value?_reduce_pair hdigits op a b memory
  rw [hstep, finite?, if_pos hx] at hinner
  obtain ⟨between, rfl, hreduce⟩ := Outcome.eq_ok_of_value? hinner
  obtain ⟨c, cs, rfl⟩ := List.exists_cons_of_ne_nil hne
  rw [Pending.value?_reduce hdigits, Operator.foldRest, hstep, Pending.reduceNested, hreduce]
  exact Pending.value?_reduce hdigits op x c cs between

theorem Pending.isSome_value?_reduce (hdigits : Double.mostPlaces < rules.digits)
    (ha : a.isFinite = true) (hb : b.isFinite = true) (hcs : ∀ c ∈ cs, c.isFinite = true)
    {memory : Memory} {x : Double} {requests : List Request}
    (hstep : op.step rules.source a (.double b) memory.requests = (.ok x, requests))
    (hx : x.isFinite = false) :
    (Outcome.value? (Pending.reduce rules memory ⟨op, (a :: b :: cs).reverse⟩)).isSome = true ↔
      op.Masked a b cs := by
  have hop : op ≠ .random := by
    rintro rfl
    simp [Operator.isFinite_of_random _ _ ha hb hstep] at hx
  have hcompute : op.compute a (.double b) = .ok x := by
    rw [Operator.step_eq hop] at hstep
    exact Operator.eq_ok_of_mapError (Prod.mk.inj hstep).1
  obtain ⟨y, hfold, hfinite⟩ := Operator.foldRest_masks rules.source memory.requests hop ha hb
    hcompute hx hcs
  have hmasked : op.Masked a b cs ↔ op.Masks x cs := by
    constructor
    · rintro ⟨x', hx', -, hmasks⟩
      obtain rfl := Except.ok.inj (hcompute.symm.trans hx')
      exact hmasks
    · exact fun hmasks => ⟨x, hcompute, hx, hmasks⟩
  rw [Pending.value?_reduce hdigits, Operator.foldRest_cons _ _ hop hcompute, hfold, finite?,
    hmasked, ← hfinite]
  split <;> simp [*]

theorem Pending.value?_reduce_nested (hdigits : Double.mostPlaces < rules.digits)
    (ha : a.isFinite = true) (hb : b.isFinite = true) (hcs : ∀ c ∈ cs, c.isFinite = true)
    (hne : cs ≠ []) (memory : Memory) :
    let flat := Outcome.value? (Pending.reduce rules memory ⟨op, (a :: b :: cs).reverse⟩)
    let nested := (Pending.reduceNested rules memory op a b cs).value?
    (¬ op.Masked a b cs → flat = nested) ∧
      (op.Masked a b cs → flat.isSome = true ∧ nested = none) := by
  rcases hstep : op.step rules.source a (.double b) memory.requests with ⟨failure | x, requests⟩
  · have hnested := Pending.value?_reduceNested_eq_none hdigits
      ((congrArg finite? hstep).trans rfl) cs
    refine ⟨fun _ => Eq.trans ?_ hnested.symm, fun hmasked => ?_⟩
    · rw [Pending.value?_reduce hdigits, Operator.foldRest, hstep]
      rfl
    · obtain ⟨x, hx, -⟩ := hmasked.exists_step rules.source memory.requests
      cases hstep.symm.trans hx
  cases hx : x.isFinite with
  | true =>
    have hnested := Pending.value?_reduceNested_of_isFinite hdigits hstep hx hne
    refine ⟨fun _ => hnested.symm, fun hmasked => ?_⟩
    obtain ⟨x', hx', hnot⟩ := hmasked.exists_step rules.source memory.requests
    obtain rfl := Except.ok.inj (Prod.mk.inj (hstep.symm.trans hx')).1
    simp [hx] at hnot
  | false =>
    have hnested := Pending.value?_reduceNested_eq_none hdigits
      ((congrArg finite? hstep).trans (if_neg (by simp [hx]))) cs
    have hflat := Pending.isSome_value?_reduce hdigits ha hb hcs hstep hx
    refine ⟨fun hmasked => ?_, fun hmasked => ⟨hflat.2 hmasked, hnested⟩⟩
    exact (Option.not_isSome_iff_eq_none.1 (mt hflat.1 hmasked)).trans hnested.symm

end

theorem Operator.eq_symbol_of_ofText? {text : Text} {op : Operator}
    (h : Operator.ofText? text = some op) : text = [op.symbol] := by
  match text, h with
  | [c], h =>
    have hsymbol := List.find?_some h
    rw [beq_iff_eq.1 hsymbol]

def IsLiteral (word : Text) (x : Double) : Prop :=
  word.IsWord ∧ Double.readOperand? word = some x

instance (word : Text) (x : Double) : Decidable (IsLiteral word x) :=
  inferInstanceAs (Decidable (_ ∧ _))

namespace IsLiteral

variable {word : Text} {x : Double}

theorem isFinite (h : IsLiteral word x) : x.isFinite = true :=
  isFinite_of_readOperand? h.2

theorem isOperand (h : IsLiteral word x) : IsOperand word := by
  refine ⟨h.1, fun hcomma => ?_, ?_⟩
  · have hread := h.2
    rw [Double.readOperand?] at hread
    split at hread
    · rename_i literal hliteral
      exact absurd (Literal.isLiteralChar_of_read? hliteral hcomma rfl) (by decide)
    · cases hread
  · cases hop : Operator.ofText? word with
    | none => rfl
    | some op =>
      have hnone (op : Operator) : Double.readOperand? [op.symbol] = none := by
        cases op <;> decide +kernel
      have hread := h.2
      rw [Operator.eq_symbol_of_ofText? hop, hnone] at hread
      cases hread

theorem operandValue? (h : IsLiteral word x) (answer : Double) :
    operandValue? answer word = some x := by
  refine operandValue?_number (fun hname => ?_) h.2
  have hnone : ∀ name ∈ constantNames, Double.readOperand? name = none := by decide +kernel
  cases (hnone word hname).symm.trans h.2

end IsLiteral

namespace Operands

def ofWords : List Text → Operands
  | [] => .empty
  | text :: words => .word text (ofWords words)

variable {words : List Text} {values : List Double}

theorem wellFormed_ofWords (h : List.Forall₂ IsLiteral words values) :
    (ofWords words).WellFormed := by
  induction h with
  | nil => trivial
  | cons hword _ ih => exact ⟨hword.isOperand, ih⟩

theorem collect_ofWords (h : List.Forall₂ IsLiteral words values) (rules : Rules) (level : Nat)
    (p : Pending) (memory : Memory) : (ofWords words).collect rules level p memory =
      .ok (⟨p.operator, values.reverse ++ p.operands⟩, memory) := by
  induction h generalizing p with
  | nil => rfl
  | @cons word x words values hword _ ih =>
    simp only [ofWords, collect, hword.operandValue?, ih, Pending.push, List.reverse_cons,
      List.append_assoc, List.singleton_append]

end Operands

def flatTree (op : Operator) (words : List Text) : Tree :=
  ⟨op, .ofWords words⟩

def nestedTree (op : Operator) (a b : Text) (words : List Text) : Tree :=
  ⟨op, .group op (.ofWords [a, b]) (.ofWords words)⟩

theorem isFinite_of_forall₂ {words : List Text} {values : List Double}
    (h : List.Forall₂ IsLiteral words values) : ∀ x ∈ values, x.isFinite = true := by
  induction h with
  | nil => simp
  | cons hword _ ih => exact List.forall_mem_cons.2 ⟨hword.isFinite, ih⟩

section

variable {rules : Rules} {op : Operator} {a b : Text} {words : List Text} {x y : Double}
  {cs : List Double}

theorem flatTree_wellFormed (op : Operator) (hne : words ≠ [])
    (h : List.Forall₂ IsLiteral words cs) : (flatTree op words).WellFormed := by
  refine ⟨fun hempty => hne ?_, Operands.wellFormed_ofWords h⟩
  cases words with
  | nil => rfl
  | cons word words => cases hempty

theorem nestedTree_wellFormed (op : Operator)
    (h : List.Forall₂ IsLiteral (a :: b :: words) (x :: y :: cs)) :
    (nestedTree op a b words).WellFormed := by
  obtain ⟨ha, htail⟩ := List.forall₂_cons.1 h
  obtain ⟨hb, hwords⟩ := List.forall₂_cons.1 htail
  exact ⟨nofun, nofun, ⟨ha.isOperand, hb.isOperand, trivial⟩, Operands.wellFormed_ofWords hwords⟩

theorem evaluate_flatTree {values : List Double} (hdepth : 1 ≤ rules.maxDepth)
    (h : List.Forall₂ IsLiteral words values) (memory : Memory) :
    (flatTree op words).evaluate rules memory =
      Pending.reduce rules memory ⟨op, values.reverse⟩ := by
  rw [Tree.evaluate, if_neg (by omega), flatTree, Operands.collect_ofWords h, ok_bind,
    List.append_nil]

theorem evaluate_nestedTree (hdepth : 2 ≤ rules.maxDepth)
    (h : List.Forall₂ IsLiteral (a :: b :: words) (x :: y :: cs)) (memory : Memory) :
    (nestedTree op a b words).evaluate rules memory =
      Pending.reduceNested rules memory op x y cs := by
  obtain ⟨ha, htail⟩ := List.forall₂_cons.1 h
  obtain ⟨hb, hwords⟩ := List.forall₂_cons.1 htail
  rw [Tree.evaluate, if_neg (by omega), nestedTree, Operands.collect, if_neg (by omega),
    Operands.collect_ofWords (.cons ha (.cons hb .nil)), ok_bind]
  simp only [Operands.collect_ofWords hwords, bind_bind, ok_bind, Pending.push,
    Pending.reduceNested, List.reverse_cons]
  rfl

end

namespace Session

theorem outcome_of_spaced (settings : Settings) (source : Source) (s : Session)
    (traced : Bool) (precision maxDepth : Option Int) {t : Tree} (hwell : t.WellFormed)
    {line : Text}
    (hspaced : Text.Spaced t.words line.pointForComma)
    (hlength : line.length ≤ settings.maxInputLength) :
    s.outcome settings source line traced (.ofPrecision precision) maxDepth =
      t.evaluate (s.rules settings source precision maxDepth) (s.memory traced) := by
  rw [outcome_eq]
  exact hwell.grammatical.evaluateLine_eq hspaced hlength (s.memory traced)

/-- An operator with at least three numbers, and the operator with the value of the first two of
them and the others: where rounding changes nothing, and within the limits, the two lines have the
same value after the same requests or both have none, unless the value of the first two numbers is
not finite and the others mask that. Then only the first line has a value. -/
theorem value?_nested (settings : Settings) (source : Source) (s : Session) (op : Operator)
    {a b : Text} {words : List Text} {x y : Double} {cs : List Double}
    (hwords : List.Forall₂ IsLiteral (a :: b :: words) (x :: y :: cs)) (hne : cs ≠ [])
    (traced : Bool) (precision maxDepth : Option Int)
    (hprecision : 309 ≤ precision.getD s.precision.value)
    (hdepth : 2 ≤ maxDepth.getD settings.maxExpressionDepth) {flatLine nestedLine : Text}
    (hflat : Text.Spaced (flatTree op (a :: b :: words)).words flatLine.pointForComma)
    (hflatLength : flatLine.length ≤ settings.maxInputLength)
    (hnested : Text.Spaced (nestedTree op a b words).words nestedLine.pointForComma)
    (hnestedLength : nestedLine.length ≤ settings.maxInputLength) :
    let value? := fun line =>
      Outcome.value? (s.outcome settings source line traced (.ofPrecision precision) maxDepth)
    (¬ op.Masked x y cs → value? flatLine = value? nestedLine) ∧
      (op.Masked x y cs → (value? flatLine).isSome = true ∧ value? nestedLine = none) := by
  have hdigits : Double.mostPlaces < (s.rules settings source precision maxDepth).digits := by
    have hlarge : (309 : Int) ≤ ((precision.getD s.precision.value).toNat : Int) :=
      hprecision.trans (Int.self_le_toNat _)
    exact Int.ofNat_le.1 hlarge
  obtain ⟨ha, htail⟩ := List.forall₂_cons.1 hwords
  obtain ⟨hb, hrest⟩ := List.forall₂_cons.1 htail
  have hflatTree := (outcome_of_spaced settings source s traced precision maxDepth
    (flatTree_wellFormed op (List.cons_ne_nil _ _) hwords) hflat hflatLength).trans
    (evaluate_flatTree (le_trans (by decide) hdepth) hwords (s.memory traced))
  have hnestedTree := (outcome_of_spaced settings source s traced precision maxDepth
    (nestedTree_wellFormed op hwords) hnested hnestedLength).trans
    (evaluate_nestedTree hdepth hwords (s.memory traced))
  dsimp only
  rw [hflatTree, hnestedTree]
  exact Pending.value?_reduce_nested hdigits ha.isFinite hb.isFinite (isFinite_of_forall₂ hrest)
    hne (s.memory traced)

theorem value?_nested_random :
    let value? := fun line => Outcome.value? ((fresh .usual).outcome .usual (.scripted [4, 2]) line
      false (.ofPrecision (some 309)) none)
    (List.Forall₂ IsLiteral ["1".toList, "6".toList, "1e0".toList] [.one, .ofNat 6, .one] ∧
        ¬ Operator.random.Masked .one (.ofNat 6) [.one]) ∧
      value? "r 1 6 1e0".toList = value? "r (r 1 6) 1e0".toList ∧
      value? "r 1 6 1e0".toList = some (.ofNat 2, [⟨1, 4⟩, ⟨1, 6⟩]) := by
  intro value?
  have hwords : List.Forall₂ IsLiteral ["1".toList, "6".toList, "1e0".toList]
      [.one, .ofNat 6, .one] := by
    decide +kernel
  have hmasked : ¬ Operator.random.Masked .one (.ofNat 6) [.one] := nofun
  have hagree := value?_nested .usual (.scripted [4, 2]) (fresh .usual) .random hwords (by simp)
    false (some 309) none (by decide) (by decide)
    (Text.lexemes_eq_iff.1 (show (Text.pointForComma "r 1 6 1e0".toList).lexemes = _ by decide))
    (by decide)
    (Text.lexemes_eq_iff.1 (show (Text.pointForComma "r (r 1 6) 1e0".toList).lexemes = _ by decide))
    (by decide)
  exact ⟨⟨hwords, hmasked⟩, hagree.1 hmasked, by decide +kernel⟩

theorem value?_nested_masked :
    let short := { Settings.usual with maxInputLength := 7, limits_writable := by decide +kernel }
    let value? := fun (settings : Settings) maxDepth line => Outcome.value?
      ((fresh settings).outcome settings .lowest line false (.ofPrecision (some 309)) maxDepth)
    (value? .usual none "/ 1e308 1e-308 0".toList = some (.zero, []) ∧
      value? .usual none "/ (/ 1e308 1e-308) 0".toList = none) ∧
    (value? .usual (some 1) "+ 1 2 3".toList = some (.ofNat 6, []) ∧
      value? .usual (some 1) "+ (+ 1 2) 3".toList = none) ∧
    value? short none "+ 1 2 3".toList = some (.ofNat 6, []) ∧
      value? short none "+ (+ 1 2) 3".toList = none := by
  decide +kernel

end Session

end PolishCalc
