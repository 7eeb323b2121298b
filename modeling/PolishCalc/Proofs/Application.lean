import PolishCalc.Operator
import PolishCalc.Proofs.Number.Finite

namespace PolishCalc

def Source.Reliable (source : Source) : Prop :=
  ∀ earlier request message, source earlier request ≠ .error (.broken message)

inductive Reports (V : Double → Prop) : Except Failure Double → Prop
  | value {x} : V x → Reports V (.ok x)
  | error (error : CalcError) : Reports V (.error (.reported error))

theorem Reports.imp {V W : Double → Prop} {result : Except Failure Double} (h : Reports V result)
    (hVW : ∀ {x}, V x → W x) : Reports W result := by
  cases h with
  | value hx => exact .value (hVW hx)
  | error e => exact .error e

theorem Double.isFinite_or_eq_nan {x : Double} (h : x.isInfinite = false) :
    x.isFinite = true ∨ x = .nan := by
  cases x with
  | finite negative units fits => exact .inl rfl
  | nan => exact .inr rfl
  | infinity negative => cases h

theorem isInfinite_of_isFinite {x : Double} (h : x.isFinite = true) : x.isInfinite = false := by
  cases x with
  | finite negative units fits => rfl
  | nan => rfl
  | infinity negative => cases h

theorem isNaN_of_isFinite {x : Double} (h : x.isFinite = true) : x.isNaN = false := by
  cases x with
  | finite negative units fits => rfl
  | nan => cases h
  | infinity negative => rfl

theorem isInfinite_of_integerToDouble {n : Int} {x : Double}
    (h : Operand.integerToDouble n = .ok x) : x.isInfinite = false := by
  rw [Operand.integerToDouble] at h
  split at h
  · cases h
  · rename_i hinfinite
    obtain rfl := Except.ok.inj h
    exact Bool.not_eq_true _ ▸ hinfinite

theorem drawn_reports {source : Source} (hsource : source.Reliable) (earlier : List Request)
    (request : Request) :
    Reports (fun x => x.isInfinite = false) (drawn request (source earlier request)) := by
  cases hanswer : source earlier request with
  | error refusal =>
    cases refusal with
    | outOfRange => exact .error _
    | broken message => exact absurd hanswer (hsource earlier request message)
  | ok n =>
    rw [drawn]
    cases hn : Operand.integerToDouble n with
    | error fault => exact .error _
    | ok x => exact .value (isInfinite_of_integerToDouble hn)

theorem randomInRange_reports {source : Source} (hsource : source.Reliable)
    {earlier : List Request} {m n : Int} {y : Double} (hn : Operand.integerToDouble n = .ok y) :
    Reports (fun x => x.isInfinite = false)
      (if min m n = max m n then
        ((Operand.integerToDouble (min m n)).mapError Failure.fault, earlier)
      else (drawn ⟨min m n, max m n⟩ (source earlier ⟨min m n, max m n⟩),
        ⟨min m n, max m n⟩ :: earlier)).1 := by
  split
  · rename_i hsame
    have hmin : min m n = n := by omega
    rw [hmin, hn]
    exact .value (isInfinite_of_integerToDouble hn)
  · exact drawn_reports hsource earlier _

theorem randomBounds?_eq {a b : Operand} {m n : Int} (ha : a.isNaN = .ok false)
    (hb : b.isNaN = .ok false) (hm : a.truncate .asReal = .ok m)
    (hn : b.truncate .asReal = .ok n) :
    randomBounds? a b = .ok (some ⟨min m n, max m n⟩) := by
  rw [randomBounds?, ha, hb, hm, hn]
  rfl

theorem isNaN_double_of_isFinite {x : Double} (h : x.isFinite = true) :
    (Operand.double x).isNaN = .ok false :=
  congrArg Except.ok (isNaN_of_isFinite h)

theorem randomBounds?_of_isFinite {x y : Double} {m n : Int} (hx : x.isFinite = true)
    (hy : y.isFinite = true) (hm : x.truncate = .ok m) (hn : y.truncate = .ok n) :
    randomBounds? (.double x) (.double y) = .ok (some ⟨min m n, max m n⟩) :=
  randomBounds?_eq (isNaN_double_of_isFinite hx) (isNaN_double_of_isFinite hy) hm hn

theorem randomInRange_double {source : Source} (hsource : source.Reliable)
    (earlier : List Request) {x y : Double} (hx : x.isInfinite = false)
    (hy : y.isInfinite = false) :
    Reports (fun x => x.isInfinite = false)
      (randomInRange source earlier (.double x) (.double y)).1 := by
  rcases Double.isFinite_or_eq_nan hx with hx | rfl
  · rcases Double.isFinite_or_eq_nan hy with hy | rfl
    · obtain ⟨m, -, hm, -, -⟩ := Double.integerToDouble_truncate hx
      obtain ⟨n, z, hn, hz, -⟩ := Double.integerToDouble_truncate hy
      simp only [randomInRange, reduceCtorEq, if_false, randomBounds?_of_isFinite hx hy hm hn]
      exact randomInRange_reports hsource hz
    · have hbounds : randomBounds? (.double x) (.double .nan) = .ok none := by
        rw [randomBounds?, isNaN_double_of_isFinite hx]
        rfl
      simp only [randomInRange, reduceCtorEq, if_false, hbounds]
      exact .value rfl
  · exact .value rfl

theorem randomInRange_absent {source : Source} (hsource : source.Reliable)
    (earlier : List Request) {x : Double} (hx : x.isInfinite = false) :
    Reports (fun x => x.isInfinite = false)
      (randomInRange source earlier (.double x) .absent).1 := by
  have hone : Operand.isNaN (.integer 1) = .ok false := by
    have hdouble := Double.ofInt_natCast (show 1 ≤ 2 ^ 53 by decide)
    rw [Nat.cast_one] at hdouble
    rw [Operand.isNaN, Operand.integerToDouble, hdouble]
    rfl
  rcases Double.isFinite_or_eq_nan hx with hx | rfl
  · obtain ⟨n, z, hn, hz, -⟩ := Double.integerToDouble_truncate hx
    have hbounds := randomBounds?_eq hone (isNaN_double_of_isFinite hx) rfl hn
    simp only [randomInRange, if_true, hbounds]
    exact randomInRange_reports hsource hz
  · have hbounds : randomBounds? (.integer 1) (.double .nan) = .ok none := by
      rw [randomBounds?, hone]
      rfl
    simp only [randomInRange, if_true, hbounds]
    exact .value rfl

def Computes {α : Type} (result : Except Fault α) : Prop :=
  result ≠ .error (.longInteger none)

namespace Computes

theorem ok {α : Type} (a : α) : Computes (.ok a) := by
  simp [Computes]

theorem bind {α β : Type} {x : Except Fault α} {f : α → Except Fault β} (hx : Computes x)
    (hf : ∀ a, Computes (f a)) : Computes (x.bind f) := by
  cases x with
  | ok a => exact hf a
  | error fault => exact fun h => hx (congrArg Except.error (Except.error.inj h))

theorem map {α β : Type} {x : Except Fault α} (hx : Computes x) (f : α → β) :
    Computes (x.map f) := by
  cases x with
  | ok a => exact ok (f a)
  | error fault => exact fun h => hx (congrArg Except.error (Except.error.inj h))

end Computes

theorem Double.computes_truncate (x : Double) : Computes x.truncate := by
  cases x <;> simp [Computes, Double.truncate]

theorem Double.computes_roundAt (digits : Nat) (x : Double) : Computes (x.roundAt digits) := by
  unfold Double.roundAt
  dsimp only
  split
  · exact .ok x
  · split
    · exact .ok x
    · exact (Double.computes_truncate _).map _

namespace Operand

theorem computes_integerToDouble (n : Int) : Computes (integerToDouble n) := by
  unfold integerToDouble
  dsimp only
  split <;> simp [Computes]

theorem computes_toDouble (use : AbsentUse) (a : Operand) : Computes (a.toDouble use) := by
  cases a with
  | double x => exact .ok x
  | integer n => exact computes_integerToDouble n
  | absent => simp [Computes, toDouble]

theorem computes_truncate (use : AbsentUse) (a : Operand) : Computes (a.truncate use) := by
  cases a with
  | double x => exact x.computes_truncate
  | integer n => exact .ok n
  | absent => simp [Computes, truncate]

theorem computes_isNaN (a : Operand) : Computes a.isNaN := by
  cases a with
  | double x => exact .ok x.isNaN
  | integer n => exact (computes_integerToDouble n).map _
  | absent => simp [Computes, isNaN]

end Operand

theorem computes_randomBounds? (a b : Operand) : Computes (randomBounds? a b) := by
  refine a.computes_isNaN.bind fun absent => ?_
  split
  · exact .ok none
  refine b.computes_isNaN.bind fun absent' => ?_
  split
  · exact .ok none
  refine (a.computes_truncate .asReal).bind fun m => ?_
  exact (b.computes_truncate .asReal).bind fun n => .ok _

def Failure.OfOperator : Failure → Prop
  | .reported error => ∃ low high, error = .rangeOutOfBounds low high
  | .fault cause => cause ≠ .longInteger none

theorem Computes.failure {α : Type} {x : Except Fault α} (hx : Computes x) {failure : Failure}
    (h : x.mapError Failure.fault = .error failure) : failure.OfOperator := by
  cases x with
  | ok a => cases h
  | error fault =>
    cases h
    exact fun hfault => hx (congrArg Except.error hfault)

theorem drawn_failure {request : Request} {answer : Except Refusal Int} {failure : Failure}
    (h : drawn request answer = .error failure) : failure.OfOperator := by
  match answer with
  | .error .outOfRange =>
    cases h
    exact ⟨_, _, rfl⟩
  | .error (.broken message) =>
    cases h
    simp [Failure.OfOperator]
  | .ok n =>
    rw [drawn] at h
    generalize Operand.integerToDouble n = converted at h
    cases converted with
    | ok x => cases h
    | error fault =>
      cases h
      exact ⟨_, _, rfl⟩

theorem randomInRange_failure {source : Source} {earlier requests : List Request} {a b : Operand}
    {failure : Failure} (h : randomInRange source earlier a b = (.error failure, requests)) :
    failure.OfOperator := by
  have hresult := congrArg Prod.fst h
  have hcomputes : Computes
      (if b = .absent then randomBounds? (.integer 1) a else randomBounds? a b) := by
    split <;> exact computes_randomBounds? _ _
  unfold randomInRange at hresult
  dsimp only at hresult
  generalize (if b = .absent then randomBounds? (.integer 1) a else randomBounds? a b) = bounds
    at hresult hcomputes
  match bounds with
  | .error fault =>
    cases hresult
    exact fun hfault => hcomputes (congrArg Except.error hfault)
  | .ok none => cases hresult
  | .ok (some request) =>
    dsimp only at hresult
    split at hresult
    · exact (Operand.computes_integerToDouble _).failure hresult
    · exact drawn_failure hresult

theorem ok_bind {ε α β : Type} (a : α) (f : α → Except ε β) : (Except.ok a).bind f = f a := rfl

namespace Operator

def Carries (op : Operator) (x : Double) : Prop :=
  op = modulo ∨ op = random → x.isInfinite = false

theorem exists_truncatedQuotient (x y : Double) (h : y.isZero = false) :
    ∃ z, truncatedQuotient x y h = .ok z := by
  rw [truncatedQuotient]
  split
  · rename_i hfinite
    obtain ⟨n, z, hn, hz, -⟩ := Double.integerToDouble_truncate hfinite
    exact ⟨z, by rw [hn, ok_bind, hz]⟩
  · exact ⟨_, rfl⟩

theorem exists_remainder {x y : Double} (hx : x.isInfinite = false) (hy : y.isInfinite = false)
    (hzero : y.isZero = false) : ∃ z, remainder x y = .ok z ∧ z.isInfinite = false := by
  rcases Double.isFinite_or_eq_nan hx with hx | rfl
  · rcases Double.isFinite_or_eq_nan hy with hy | rfl
    · have hfinite := Double.isFinite_rem hx hy hzero
      rw [remainder, isNaN_of_isFinite hfinite]
      exact ⟨_, rfl, isInfinite_of_isFinite hfinite⟩
    · have hnan : x.rem .nan = .nan := by cases x <;> rfl
      refine ⟨.nan, ?_, rfl⟩
      rw [remainder, hnan]
      simp [Double.isNaN]
  · exact ⟨.nan, rfl, rfl⟩

theorem exists_compute {op : Operator} {x y : Double} (hx : op.Carries x)
    (hy : y.isInfinite = false) : ∃ z, op.compute x (.double y) = .ok z ∧ op.Carries z := by
  cases op with
  | add => exact ⟨_, rfl, nofun⟩
  | subtract => exact ⟨_, rfl, nofun⟩
  | multiply => exact ⟨_, rfl, nofun⟩
  | divide => exact ⟨_, rfl, nofun⟩
  | power => exact ⟨_, rfl, nofun⟩
  | intDivide =>
    by_cases hzero : y.isZero = false
    · obtain ⟨z, hz⟩ := exists_truncatedQuotient x y hzero
      exact ⟨z, (dif_pos hzero).trans hz, nofun⟩
    · exact ⟨.zero, dif_neg hzero, nofun⟩
  | modulo =>
    by_cases hzero : y.isZero = true
    · exact ⟨.zero, if_pos hzero, fun _ => rfl⟩
    · obtain ⟨z, hz, hcarries⟩ := exists_remainder (hx (.inl rfl)) hy (Bool.not_eq_true _ ▸ hzero)
      exact ⟨z, (if_neg hzero).trans hz, fun _ => hcarries⟩
  | random => exact ⟨x, rfl, hx⟩

variable {source : Source} {op : Operator}

theorem step_eq (hop : op ≠ random) (x : Double) (operand : Operand) (earlier : List Request) :
    step source op x operand earlier =
      ((op.compute x operand).mapError Failure.fault, earlier) := by
  cases op <;> first | rfl | exact absurd rfl hop

theorem step_reports (hsource : source.Reliable) {x y : Double} (hx : op.Carries x)
    (hy : y.isInfinite = false) (earlier : List Request) :
    Reports op.Carries (step source op x (.double y) earlier).1 := by
  by_cases hop : op = random
  · subst hop
    exact (randomInRange_double hsource earlier (hx (.inr rfl)) hy).imp fun hz _ => hz
  · obtain ⟨z, hz, hcarries⟩ := exists_compute hx hy
    rw [step_eq hop, hz]
    exact .value hcarries

theorem foldRest_reports (hsource : source.Reliable) {x : Double} (hx : op.Carries x)
    {rest : List Double} (hrest : ∀ y ∈ rest, y.isInfinite = false) (earlier : List Request) :
    Reports op.Carries (foldRest source op x (rest.map Operand.double) earlier).1 := by
  induction rest generalizing x earlier with
  | nil => exact .value hx
  | cons y rest ih =>
    obtain ⟨hy, hothers⟩ := List.forall_mem_cons.1 hrest
    have hstep := step_reports hsource hx hy earlier
    rw [List.map_cons, foldRest]
    cases hs : step source op x (.double y) earlier with
    | mk result requests =>
      rw [hs] at hstep
      cases hstep with
      | value hz => exact ih hz hothers requests
      | error e => exact .error e

theorem apply_reports (hsource : source.Reliable) {operands : List Double}
    (hne : operands ≠ []) (hoperands : ∀ x ∈ operands, x.isInfinite = false)
    (earlier : List Request) :
    Reports op.Carries (op.apply source (operands.map Operand.double) earlier).1 := by
  cases operands with
  | nil => exact absurd rfl hne
  | cons x rest =>
    obtain ⟨hx, hrest⟩ := List.forall_mem_cons.1 hoperands
    rw [List.map_cons, apply]
    split
    · exact (randomInRange_absent hsource earlier hx).imp fun hz _ => hz
    · exact foldRest_reports hsource (fun _ => hx) hrest earlier

theorem computes_truncatedQuotient (x y : Double) (h : y.isZero = false) :
    Computes (truncatedQuotient x y h) := by
  obtain ⟨z, hz⟩ := exists_truncatedQuotient x y h
  rw [hz]
  exact .ok z

theorem computes_remainder (x y : Double) : Computes (remainder x y) := by
  unfold remainder
  split
  · simp [Computes]
  · exact .ok _

theorem computes_compute (op : Operator) (x : Double) (operand : Operand) :
    Computes (op.compute x operand) := by
  have hoperand := operand.computes_toDouble op.absentUse
  cases op with
  | add | subtract | multiply | divide => exact hoperand.map _
  | power =>
    simp only [compute]
    split
    · exact .ok _
    · exact hoperand.map _
  | intDivide =>
    refine hoperand.bind fun y => ?_
    split
    · exact computes_truncatedQuotient x y _
    · exact .ok _
  | modulo =>
    refine hoperand.bind fun y => ?_
    split
    · exact .ok _
    · exact computes_remainder x y
  | random => exact .ok x

theorem step_failure {x : Double} {operand : Operand} {earlier requests : List Request}
    {failure : Failure} (h : step source op x operand earlier = (.error failure, requests)) :
    failure.OfOperator := by
  by_cases hop : op = random
  · subst hop
    exact randomInRange_failure h
  · rw [step_eq hop] at h
    exact (computes_compute op x operand).failure (congrArg Prod.fst h)

theorem foldRest_failure {x : Double} {rest : List Operand} {earlier requests : List Request}
    {failure : Failure} (h : foldRest source op x rest earlier = (.error failure, requests)) :
    failure.OfOperator := by
  induction rest generalizing x earlier with
  | nil => cases h
  | cons operand rest ih =>
    rw [foldRest] at h
    cases hs : step source op x operand earlier with
    | mk result between =>
      rw [hs] at h
      cases result with
      | ok y => exact ih h
      | error failure =>
        cases h
        exact step_failure hs

theorem apply_failure {operands : List Operand} {earlier requests : List Request}
    {failure : Failure} (h : op.apply source operands earlier = (.error failure, requests)) :
    failure.OfOperator := by
  cases operands with
  | nil =>
    cases h
    simp [Failure.OfOperator]
  | cons first rest =>
    rw [apply] at h
    split at h
    · exact randomInRange_failure h
    · split at h
      · rename_i fault hfirst
        cases h
        exact fun hfault => first.computes_toDouble .asDouble (hfault ▸ hfirst)
      · exact foldRest_failure h

theorem apply_pair {op : Operator} (hop : op ≠ random) {x y z : Double}
    (h : op.compute x (.double y) = .ok z) (source : Source) (earlier : List Request) :
    op.apply source [.double x, .double y] earlier = (.ok z, earlier) := by
  have hstep : step source op x (.double y) earlier = (.ok z, earlier) := by
    rw [step_eq hop, h]
    rfl
  rw [apply, if_neg fun hrandom => hop hrandom.1]
  simp only [Operand.toDouble_double, foldRest, hstep]

end Operator

end PolishCalc
