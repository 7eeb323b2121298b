import Mathlib.Order.Bounds.Basic
import PolishCalc.Proofs.Application
import PolishCalc.Proofs.Meaning
import PolishCalc.Proofs.Recording
import PolishCalc.Proofs.Number.Whole
import PolishCalc.Session.Action

namespace PolishCalc

def Source.InRange (source : Source) : Prop :=
  ∀ earlier request, request.low ≤ request.high →
    ∃ n, source earlier request = .ok n ∧ request.low ≤ n ∧ n ≤ request.high

namespace Operand

def IsDouble : Operand → Prop
  | double x => x.isFinite = true
  | integer n => Representable n
  | absent => False

instance (a : Operand) : Decidable a.IsDouble :=
  match a with
  | double x => inferInstanceAs (Decidable (x.isFinite = true))
  | integer n => inferInstanceAs (Decidable (Representable n))
  | absent => inferInstanceAs (Decidable False)

def integerParts (operands : List Operand) : Set Int :=
  {m | ∃ operand ∈ operands, operand.truncate .asReal = .ok m}

structure Bounds (a : Operand) (m : Int) : Prop where
  number : a.isNaN = .ok false
  part : a.truncate .asReal = .ok m
  representable : Representable m

theorem bounds_double {x : Double} {m : Int} (h : x.truncate = .ok m) : (double x).Bounds m where
  number := by
    cases x with
    | nan => cases h
    | infinity negative => rfl
    | finite negative units fits => rfl
  part := h
  representable := representable_of_truncate h

theorem bounds_integer {n : Int} (h : Representable n) : (integer n).Bounds n where
  number := by
    rw [isNaN, h.integerToDouble]
    exact isNaN_double_of_isFinite h.isFinite
  part := rfl
  representable := h

theorem Bounds.ne_absent {a : Operand} {m : Int} (h : a.Bounds m) : a ≠ absent := by
  rintro rfl
  cases h.number

theorem IsDouble.exists_bounds {a : Operand} (h : a.IsDouble) (use : AbsentUse) :
    ∃ x m, a.toDouble use = .ok x ∧ (double x).Bounds m ∧ a.Bounds m := by
  cases a with
  | double x =>
    obtain ⟨m, -, hm, -⟩ := Double.integerToDouble_truncate h
    exact ⟨x, m, rfl, bounds_double hm, bounds_double hm⟩
  | integer n =>
    have hrepresentable : Representable n := h
    exact ⟨_, n, hrepresentable.integerToDouble, bounds_double hrepresentable.truncate,
      bounds_integer hrepresentable⟩
  | absent => exact absurd h id

theorem integerParts_cons {a : Operand} {m : Int} (h : a.Bounds m) (rest : List Operand) :
    integerParts (a :: rest) = insert m (integerParts rest) := by
  ext n
  constructor
  · rintro ⟨b, hb, hn⟩
    rcases List.mem_cons.1 hb with rfl | hb
    · exact .inl (Except.ok.inj (hn.symm.trans h.part))
    · exact .inr ⟨b, hb, hn⟩
  · rintro (rfl | ⟨b, hb, hn⟩)
    · exact ⟨a, List.mem_cons_self, h.part⟩
    · exact ⟨b, List.mem_cons_of_mem a hb, hn⟩

theorem exists_isLeast_isGreatest {a : Operand} {rest : List Operand}
    (h : ∀ operand ∈ a :: rest, operand.IsDouble) :
    ∃ low high, IsLeast (integerParts (a :: rest)) low ∧
      IsGreatest (integerParts (a :: rest)) high := by
  induction rest generalizing a with
  | nil =>
    obtain ⟨-, m, -, -, hm⟩ := (h a (List.mem_singleton_self a)).exists_bounds .asReal
    have hempty : integerParts [] = ∅ := by simp [integerParts]
    rw [integerParts_cons hm, hempty, insert_empty_eq]
    exact ⟨m, m, isLeast_singleton, isGreatest_singleton⟩
  | cons b rest ih =>
    obtain ⟨ha, hrest⟩ := List.forall_mem_cons.1 h
    obtain ⟨-, m, -, -, hm⟩ := ha.exists_bounds .asReal
    obtain ⟨low, high, hlow, hhigh⟩ := ih hrest
    rw [integerParts_cons hm]
    exact ⟨min m low, max m high, hlow.insert m, hhigh.insert m⟩

end Operand

structure Between (low high n : Int) (made : List Request) : Prop where
  representable : Representable n
  low_le : low ≤ n
  le_high : n ≤ high
  requests : ∀ request ∈ made, low ≤ request.low ∧ request.low < request.high ∧ request.high ≤ high

def Draws (low high : Int) (most : Nat) (earlier : List Request)
    (done : Except Failure Double × List Request) : Prop :=
  ∃ n made, done = (.ok (.ofInt n), made ++ earlier) ∧ made.length ≤ most ∧ Between low high n made

section

variable {a b : Operand} {m k : Int}

theorem randomInRange_eq (ha : a.Bounds m) (hb : b.Bounds k) (source : Source)
    (earlier : List Request) :
    randomInRange source earlier a b =
      if min m k = max m k then
        ((Operand.integerToDouble (min m k)).mapError Failure.fault, earlier)
      else (drawn ⟨min m k, max m k⟩ (source earlier ⟨min m k, max m k⟩),
        ⟨min m k, max m k⟩ :: earlier) := by
  rw [randomInRange, if_neg hb.ne_absent,
    randomBounds?_eq ha.number hb.number ha.part hb.part]

theorem randomInRange_comm (ha : a.Bounds m) (hb : b.Bounds k) (source : Source)
    (earlier : List Request) :
    randomInRange source earlier a b = randomInRange source earlier b a := by
  rw [randomInRange_eq ha hb, randomInRange_eq hb ha, min_comm, max_comm]

theorem drawn_eq {low high n : Int} {request : Request} (hlow : Representable low)
    (hhigh : Representable high) (hle : low ≤ n) (hle' : n ≤ high) :
    ∃ z, drawn request (.ok n) = .ok (.ofInt z) ∧ Representable z ∧ low ≤ z ∧ z ≤ high := by
  obtain ⟨z, heq, hz, hlowZ, hzHigh⟩ := exists_ofInt_eq hlow hhigh hle hle'
  have hdouble : Operand.integerToDouble n = .ok (.ofInt z) := by
    rw [← hz.integerToDouble, Operand.integerToDouble, Operand.integerToDouble, heq]
  refine ⟨z, ?_, hz, hlowZ, hzHigh⟩
  rw [drawn, hdouble]
  rfl

theorem draws_randomInRange {source : Source} (hsource : source.InRange) {low high : Int}
    (ha : a.Bounds m) (hm : low ≤ m ∧ m ≤ high) (hb : b.Bounds k) (hk : low ≤ k ∧ k ≤ high)
    (earlier : List Request) : Draws low high 1 earlier (randomInRange source earlier a b) := by
  have hmin : Representable (min m k) := min_rec' _ ha.representable hb.representable
  have hmax : Representable (max m k) := max_rec' _ ha.representable hb.representable
  rw [randomInRange_eq ha hb]
  split
  · refine ⟨min m k, [], ?_, Nat.zero_le 1, hmin, by omega, by omega, by simp⟩
    rw [hmin.integerToDouble]
    rfl
  · obtain ⟨drew, hanswer, hlow, hhigh⟩ := hsource earlier ⟨min m k, max m k⟩ min_le_max
    obtain ⟨n, hdrawn, hn, hlowN, hnHigh⟩ := drawn_eq hmin hmax hlow hhigh
    refine ⟨n, [⟨min m k, max m k⟩], ?_, le_rfl, hn, by omega, by omega, ?_⟩
    · rw [hanswer, hdrawn]
      rfl
    · simp only [List.forall_mem_singleton]
      omega

end

namespace Operator

variable {source : Source} {low high : Int} {rest : List Operand}

theorem draws_foldRest_cons {x : Double} {b : Operand} {earlier : List Request}
    (h : Draws low high 1 earlier (randomInRange source earlier (.double x) b))
    (hnext : ∀ m between, Representable m → low ≤ m ∧ m ≤ high →
      Draws low high rest.length between (foldRest source random (.ofInt m) rest between)) :
    Draws low high (b :: rest).length earlier (foldRest source random x (b :: rest) earlier) := by
  obtain ⟨m, made, hstep, hlength, hm⟩ := h
  obtain ⟨n, made', hrest, hlength', hn⟩ :=
    hnext m (made ++ earlier) hm.representable ⟨hm.low_le, hm.le_high⟩
  refine ⟨n, made' ++ made, ?_, ?_, { hn with requests := ?_ }⟩
  · rw [foldRest, step, hstep, List.append_assoc]
    exact hrest
  · rw [List.length_append, List.length_cons]
    omega
  · exact List.forall_mem_append.2 ⟨hn.requests, hm.requests⟩

theorem draws_foldRest (hsource : source.InRange) {m : Int} (hm : Representable m)
    (hbetween : low ≤ m ∧ m ≤ high) (hrest : ∀ b ∈ rest, b.IsDouble)
    (hparts : ∀ k ∈ Operand.integerParts rest, low ≤ k ∧ k ≤ high) (earlier : List Request) :
    Draws low high rest.length earlier (foldRest source random (.ofInt m) rest earlier) := by
  induction rest generalizing m earlier with
  | nil => exact ⟨m, [], rfl, le_rfl, hm, hbetween.1, hbetween.2, by simp⟩
  | cons b rest ih =>
    obtain ⟨hb, hothers⟩ := List.forall_mem_cons.1 hrest
    obtain ⟨-, k, -, -, hk⟩ := hb.exists_bounds .asReal
    rw [Operand.integerParts_cons hk, Set.forall_mem_insert] at hparts
    have hstep := draws_randomInRange hsource (Operand.bounds_double hm.truncate) hbetween hk
      hparts.1 earlier
    exact draws_foldRest_cons hstep fun m between hm hbetween =>
      ih hm hbetween hothers hparts.2 between

theorem apply_random_pair {a b : Operand} (ha : a.IsDouble) (hb : b.IsDouble)
    (earlier : List Request) :
    random.apply source [a, b] earlier = randomInRange source earlier a b := by
  obtain ⟨x, m, hdouble, hx, hm⟩ := ha.exists_bounds .asDouble
  obtain ⟨-, k, -, -, hk⟩ := hb.exists_bounds .asReal
  rw [apply, if_neg (by simp), hdouble, randomInRange_eq hm hk, ← randomInRange_eq hx hk]
  dsimp only
  rw [foldRest, step]
  rcases randomInRange source earlier (.double x) b with ⟨_ | y, requests⟩ <;> rfl

theorem draws_apply (hsource : source.InRange) {first second : Operand}
    (hoperands : ∀ a ∈ first :: second :: rest, a.IsDouble)
    (hparts : ∀ k ∈ Operand.integerParts (first :: second :: rest), low ≤ k ∧ k ≤ high)
    (earlier : List Request) :
    Draws low high (second :: rest).length earlier
      (random.apply source (first :: second :: rest) earlier) := by
  obtain ⟨hfirst, hothers⟩ := List.forall_mem_cons.1 hoperands
  obtain ⟨hsecond, hrest⟩ := List.forall_mem_cons.1 hothers
  obtain ⟨x, m, hdouble, hx, hm⟩ := hfirst.exists_bounds .asDouble
  obtain ⟨-, k, -, -, hk⟩ := hsecond.exists_bounds .asReal
  rw [Operand.integerParts_cons hm, Operand.integerParts_cons hk, Set.forall_mem_insert,
    Set.forall_mem_insert] at hparts
  have hstep := draws_randomInRange hsource hx hparts.1 hk hparts.2.1 earlier
  rw [apply, if_neg (by simp), hdouble]
  exact draws_foldRest_cons hstep fun m between hm hbetween =>
    draws_foldRest hsource hm hbetween hrest hparts.2.2 between

end Operator

def RandomLine (rules : Rules) (memory : Memory) (line : Text) (xs : List Double)
    (before : Memory) : Prop :=
  ∃ t : Tree, t.operator = .random ∧ t.WellFormed ∧ t.depth ≤ rules.maxDepth ∧
    Text.Spaced t.words line.pointForComma ∧ line.length ≤ rules.maxLength ∧
    (t.operands.values rules).outcome memory = (.ok xs, before)

theorem RandomLine.evaluateLine_eq {rules : Rules} {memory before : Memory} {line : Text}
    {xs : List Double} (h : RandomLine rules memory line xs before) (hlength : 2 ≤ xs.length)
    {n : Int} (hn : Representable n) {requests : List Request}
    (happly : Operator.random.apply rules.source (xs.map .double) before.requests =
      (.ok (.ofInt n), requests)) :
    evaluateLine rules memory line =
      .ok (.ofInt n, before.record requests ⟨.random, xs, .ofInt n⟩) := by
  obtain ⟨t, hop, hwell, hdepth, hspaced, hshort, hvalues⟩ := h
  have hcomplete : Pending.complete ⟨.random, xs.reverse⟩ before.answer = xs := by
    rw [Computation.complete_reverse, if_neg (by omega)]
  have hne : xs.reverse ≠ [] := by
    intro hempty
    rw [List.reverse_eq_nil_iff.1 hempty] at hlength
    simp at hlength
  have hcompleted : Operator.random.apply rules.source
      ((Pending.complete ⟨.random, xs.reverse⟩ before.answer).map .double) before.requests =
        (.ok (.ofInt n), requests) := by
    rwa [hcomplete]
  have hreduce := Pending.reduce_of_apply (p := ⟨.random, xs.reverse⟩) hne hcompleted hn.isFinite
    (hn.roundAt rules.digits)
  rw [hcomplete] at hreduce
  have hmeaning : (t.meaning rules).outcome memory =
      Stop.split (Pending.reduce rules before ⟨.random, xs.reverse⟩) := by
    rw [Tree.meaning, Computation.outcome_bind, hvalues, hop]
    exact Computation.agrees_combine rules .random xs before
  have hline := (hwell.evaluateLine_spaced hdepth hspaced hshort memory).trans hmeaning
  rw [hreduce] at hline
  exact Stop.eq_of_split_eq_ok hline

/-- The random integer of two or more operands, from a source that keeps to its bounds, lies between
the least and the greatest integer part of the operands, and so do the bounds of all requests made
for it: at most one for each operand after the first. It is the same if two operands are exchanged.
Rounded to any number of decimal places it stays as it is, so it is the answer that a line with
these operands leaves. -/
theorem random_between_operands {source : Source} (hsource : source.InRange)
    {operands : List Operand} (hlength : 2 ≤ operands.length)
    (hoperands : ∀ a ∈ operands, a.IsDouble) (earlier : List Request) :
    (∃ low high n made,
      IsLeast (Operand.integerParts operands) low ∧
      IsGreatest (Operand.integerParts operands) high ∧
      Operator.random.apply source operands earlier = (.ok (.ofInt n), made ++ earlier) ∧
      ((Double.ofInt n).isWhole = true ∧ (Double.ofInt n).truncate = .ok n) ∧
      (low ≤ n ∧ n ≤ high) ∧
      made.length + 1 ≤ operands.length ∧
      (∀ request ∈ made,
        low ≤ request.low ∧ request.low < request.high ∧ request.high ≤ high) ∧
      ∀ (settings : Settings) (s : Session) (precision : Operand) (maxDepth : Option Int)
        (digits : Nat) (line : Text) (xs : List Double) (before : Memory),
        operands = xs.map .double → before.requests = earlier →
        s.placesFor precision = .ok digits →
        RandomLine ⟨digits, settings.maxInputLength,
          maxDepth.getD settings.maxExpressionDepth, source⟩ (s.memory false) line xs before →
        let done := s.perform settings source (.evaluate line false precision maxDepth)
        done.1 = .ok (.number (.ofInt n)) ∧ done.2.answer.value = .ofInt n ∧
          done.2.requests = made ++ earlier) ∧
    ∀ a b, operands = [a, b] →
      Operator.random.apply source [b, a] earlier =
        Operator.random.apply source [a, b] earlier := by
  obtain ⟨first, rest, rfl⟩ := List.exists_cons_of_length_pos (show 0 < operands.length by omega)
  obtain ⟨second, rest, rfl⟩ := List.exists_cons_of_length_pos (Nat.lt_of_succ_lt_succ hlength)
  obtain ⟨low, high, hlow, hhigh⟩ := Operand.exists_isLeast_isGreatest hoperands
  obtain ⟨n, made, happly, hmade, hn⟩ := Operator.draws_apply hsource hoperands
    (fun k hk => ⟨hlow.2 hk, hhigh.2 hk⟩) earlier
  constructor
  · refine ⟨low, high, n, made, hlow, hhigh, happly,
      ⟨hn.representable.isWhole, hn.representable.truncate⟩, ⟨hn.low_le, hn.le_high⟩,
      Nat.succ_le_succ hmade, hn.requests, ?_⟩
    intro settings s precision maxDepth digits line xs before hxs hearlier hdigits hline done
    have hmany : 2 ≤ xs.length := by
      rwa [hxs, List.length_map] at hlength
    rw [hxs, ← hearlier] at happly
    have houtcome := (s.outcome_of_placesFor hdigits line false maxDepth).trans
      (hline.evaluateLine_eq hmany hn.representable happly)
    have hdone : done = s.withOutcome (s.outcome settings source line false precision maxDepth)
        .number := s.perform_evaluate_untraced settings source line precision maxDepth
    rw [hdone, houtcome, ← hearlier]
    exact ⟨rfl, rfl, rfl⟩
  · intro a b hpair
    simp only [hpair, List.forall_mem_cons] at hoperands
    obtain ⟨ha, hb, -⟩ := hoperands
    obtain ⟨-, m, -, -, hm⟩ := ha.exists_bounds .asReal
    obtain ⟨-, k, -, -, hk⟩ := hb.exists_bounds .asReal
    rw [Operator.apply_random_pair ha hb, Operator.apply_random_pair hb ha,
      randomInRange_comm hk hm]

theorem Source.inRange_lowest : Source.lowest.InRange :=
  fun _ request h => ⟨request.low, rfl, le_rfl, h⟩

theorem random_between_operands_nested :
    let line : Text := "r 0.5 -2.5 (r 6 9)".toList
    let half := Double.ofDecimal false 5 (-1)
    let xs := [half, .ofDecimal true 25 (-1), .ofInt 6]
    let before : Memory :=
      ⟨.ofInt 6, [⟨6, 9⟩], [⟨.random, [.ofInt 6, .ofInt 9], .ofInt 6⟩], none⟩
    let s := Session.fresh .usual
    let done := s.perform .usual .lowest (.evaluate line false (.integer 12) none)
    (Source.lowest.InRange ∧ 2 ≤ (xs.map Operand.double).length ∧
        (∀ a ∈ xs.map Operand.double, a.IsDouble) ∧ s.placesFor (.integer 12) = .ok 12 ∧
        RandomLine ⟨12, Settings.usual.maxInputLength, Settings.usual.maxExpressionDepth, .lowest⟩
          (s.memory false) line xs before) ∧
      (∃ n made, Operator.random.apply .lowest (xs.map .double) [⟨6, 9⟩] =
          (.ok (.ofInt n), made ++ [⟨6, 9⟩]) ∧ made.length + 1 ≤ 3 ∧
        done.2.answer.value = .ofInt n ∧ done.2.requests = made ++ [⟨6, 9⟩]) ∧
      done.2.answer.value = .ofInt (-2) ∧ done.2.requests = [⟨-2, 6⟩, ⟨-2, 0⟩, ⟨6, 9⟩] ∧
      Operator.random.apply .lowest [.integer 6, .double half] [] =
        Operator.random.apply .lowest [.double half, .integer 6] [] := by
  intro line half xs before s done
  have hxs : ∀ a ∈ xs.map Operand.double, a.IsDouble := by decide +kernel
  have hpair : ∀ a ∈ [Operand.double half, .integer 6], a.IsDouble := by decide +kernel
  have hline : RandomLine ⟨12, Settings.usual.maxInputLength, Settings.usual.maxExpressionDepth,
      .lowest⟩ (s.memory false) line xs before :=
    ⟨⟨.random, .word "0.5".toList (.word "-2.5".toList
      (.group .random (.word ['6'] (.word ['9'] .empty)) .empty))⟩, rfl, by decide, by decide,
      Text.lexemes_eq_iff.1 (by decide), by decide, by decide +kernel⟩
  obtain ⟨-, -, n, made, -, -, happly, -, -, hmade, -, hlines⟩ :=
    (random_between_operands Source.inRange_lowest (by decide) hxs [⟨6, 9⟩]).1
  obtain ⟨-, hanswer, hrequests⟩ :=
    hlines .usual s (.integer 12) none 12 line xs before rfl rfl rfl hline
  exact ⟨⟨Source.inRange_lowest, by decide, hxs, rfl, hline⟩,
    ⟨n, made, happly, hmade, hanswer, hrequests⟩, by decide +kernel, by decide +kernel,
    (random_between_operands Source.inRange_lowest (by decide) hpair []).2 _ _ rfl⟩

end PolishCalc
