import PolishCalc.Proofs.Lockstep
import PolishCalc.Proofs.Parentheses
import PolishCalc.Proofs.Parsing

namespace PolishCalc

structure Surroundings where
  rest : Level
  outer : List Level

namespace Surroundings

def depth (c : Surroundings) : Nat :=
  c.rest.length + c.outer.flatten.length

def surround (c : Surroundings) (level : Level) : List Level → Level × List Level
  | [] => (level ++ c.rest, c.outer)
  | around :: outer => (level, (c.surround around outer).1 :: (c.surround around outer).2)

def place (c : Surroundings) (p : Progress) : Progress :=
  ⟨(c.surround p.level p.outer).1, (c.surround p.level p.outer).2, p.memory⟩

end Surroundings

def Stop.deeper (inside whole : Int) (stop : Stop) : Stop :=
  if stop.failure = .tooDeep inside then ⟨.tooDeep whole, stop.memory⟩ else stop

theorem Stop.deeper_tooDeep (inside whole : Int) (memory : Memory) :
    Stop.deeper inside whole ⟨.tooDeep inside, memory⟩ = ⟨.tooDeep whole, memory⟩ :=
  if_pos rfl

theorem Stop.deeper_of_ne {stop : Stop} {inside : Int} (h : stop.failure ≠ .tooDeep inside)
    (whole : Int) : stop.deeper inside whole = stop :=
  if_neg h

theorem Stop.deeper_reported {error : CalcError} (h : ∀ limit, error ≠ .tooDeep limit)
    (inside whole : Int) (memory : Memory) :
    Stop.deeper inside whole ⟨.reported error, memory⟩ = ⟨.reported error, memory⟩ :=
  Stop.deeper_of_ne (Failure.ne_tooDeep (fun limit heq => h limit (Failure.reported.inj heq))
    (by simp) inside) whole

def Rules.inside (rules : Rules) (n : Nat) : Rules :=
  rules.withLimit (rules.maxDepth - n)

def Rules.deeper (rules : Rules) (n : Nat) : Stop → Stop :=
  Stop.deeper (rules.inside n).maxDepth rules.maxDepth

def CalcError.OfEntry (error : CalcError) : Prop :=
  (∃ limit, error = .tooDeep limit) ∨ ∃ found, error = .invalidSymbol found

theorem Level.push_ne_nil {level : Level} (h : level ≠ []) (x : Double) : level.push x ≠ [] := by
  obtain ⟨p, rest, rfl⟩ := List.exists_cons_of_ne_nil h
  exact List.cons_ne_nil _ _

theorem Level.push_append {level : Level} (h : level ≠ []) (rest : Level) (x : Double) :
    Level.push (level ++ rest) x = level.push x ++ rest := by
  obtain ⟨p, front, rfl⟩ := List.exists_cons_of_ne_nil h
  rfl

theorem Level.reduce_append (rules : Rules) (memory : Memory) (p next : Pending)
    (front rest : Level) :
    Level.reduce rules memory p (front ++ next :: rest) =
      (Level.reduce rules memory p front).bind fun reduced =>
        Level.reduce rules reduced.2 (next.push reduced.1) rest := by
  induction front generalizing p memory with
  | nil => exact Level.reduce_cons rules memory p next rest
  | cons q front ih =>
    rw [List.cons_append, Level.reduce_cons, Level.reduce_cons, bind_bind]
    congr 1
    funext reduced
    exact ih reduced.2 (q.push reduced.1)

theorem Level.ofReduction {rules : Rules} {memory : Memory} {p : Pending} {rest : Level}
    {stop : Stop} (h : Level.reduce rules memory p rest = .error stop) {error : CalcError}
    (herror : stop.failure = .reported error) : error.OfReduction := by
  induction rest generalizing p memory with
  | nil => exact Pending.ofReduction h herror
  | cons next rest ih =>
    rw [Level.reduce_cons] at h
    rcases bind_eq_error h with hreduce | ⟨reduced, -, hrest⟩
    · exact Pending.ofReduction hreduce herror
    · exact ih hrest

theorem Level.reduce_ne_tooDeep {rules : Rules} {memory : Memory} {p : Pending} {rest : Level}
    {stop : Stop} (h : Level.reduce rules memory p rest = .error stop) (limit : Int) :
    stop.failure ≠ .tooDeep limit := by
  induction rest generalizing p memory with
  | nil => exact Pending.reduce_ne_tooDeep h limit
  | cons next rest ih =>
    rw [Level.reduce_cons] at h
    rcases bind_eq_error h with hreduce | ⟨reduced, -, hrest⟩
    · exact Pending.reduce_ne_tooDeep hreduce limit
    · exact ih hrest

namespace Surroundings

variable (c : Surroundings)

theorem surround_push {level : Level} (h : level ≠ []) (outer : List Level) (x : Double) :
    c.surround (level.push x) outer =
      (Level.push (c.surround level outer).1 x, (c.surround level outer).2) := by
  cases outer with
  | nil => exact Prod.ext (Level.push_append h c.rest x).symm rfl
  | cons around outer => rfl

theorem length_surround (level : Level) (outer : List Level) :
    (c.surround level outer).1.length + (c.surround level outer).2.flatten.length =
      level.length + outer.flatten.length + c.depth := by
  induction outer generalizing level with
  | nil =>
    simp only [surround, depth, List.length_append, List.flatten_nil, List.length_nil]
    omega
  | cons around outer ih =>
    simp only [surround, List.flatten_cons, List.length_append, ih]
    omega

theorem depth_place (p : Progress) : (c.place p).depth = p.depth + c.depth :=
  c.length_surround p.level p.outer

def Begun (p : Progress) : Prop :=
  (p.outer = [] → p.level ≠ []) ∧ ∀ level ∈ p.outer, level ≠ []

theorem place_level_eq_nil {p : Progress} (hp : Begun p) :
    (c.place p).level = [] ↔ p.level = [] := by
  obtain ⟨level, outer, memory⟩ := p
  cases outer with
  | nil =>
    have hlevel : level ≠ [] := hp.1 rfl
    have happend : level ++ c.rest ≠ [] := by simp [hlevel]
    exact iff_of_false happend hlevel
  | cons around outer => exact Iff.rfl

def embed (rules : Rules) (read : Except Stop Progress) : Except Stop Progress :=
  (read.map c.place).mapError (rules.deeper c.depth)

theorem embed_fail (rules : Rules) (p : Progress) {error : CalcError}
    (h : ∀ limit, error ≠ .tooDeep limit) : c.embed rules (p.fail error) = (c.place p).fail error :=
  congrArg Except.error (Stop.deeper_reported h _ _ p.memory)

theorem enter_place (rules : Rules) (p : Progress) (token : Option Token) :
    (c.place p).enter rules token = c.embed rules (p.enter (rules.inside c.depth) token) := by
  have hlimit : rules.maxDepth < (c.place p).depth + 1 ↔
      (rules.inside c.depth).maxDepth < p.depth + 1 := by
    rw [c.depth_place, Nat.cast_add]
    change _ ↔ rules.maxDepth - c.depth < p.depth + 1
    omega
  by_cases hdeep : rules.maxDepth < (c.place p).depth + 1
  · have hin : p.enter (rules.inside c.depth) token =
        .error ⟨.tooDeep (rules.inside c.depth).maxDepth, p.memory⟩ := if_pos (hlimit.1 hdeep)
    have hembed : c.embed rules (.error ⟨.tooDeep (rules.inside c.depth).maxDepth, p.memory⟩) =
        .error ⟨.tooDeep rules.maxDepth, p.memory⟩ :=
      congrArg Except.error (Stop.deeper_tooDeep _ _ p.memory)
    rw [hin, hembed]
    exact if_pos hdeep
  · have hshallow := hlimit.not.1 hdeep
    rcases token with _ | (_ | _ | op | text) <;>
      simp only [Progress.enter, if_neg hdeep, if_neg hshallow]
    · exact (c.embed_fail rules p (by simp)).symm
    · exact (c.embed_fail rules p (by simp)).symm
    · exact (c.embed_fail rules p (by simp)).symm
    · obtain ⟨level, outer, memory⟩ := p
      cases outer <;> rfl
    · exact (c.embed_fail rules p (by simp)).symm

theorem take_place (rules : Rules) {p : Progress} (hp : p.level ≠ []) (text : Text) :
    (c.place p).take text = c.embed rules (p.take text) := by
  simp only [Progress.take, show (c.place p).memory = p.memory from rfl]
  cases operandValue? p.memory.answer text with
  | none => exact (c.embed_fail rules p (by simp)).symm
  | some x =>
    simp only [embed, Except.map, Except.mapError, place, c.surround_push hp]

theorem close_place (rules : Rules) {p : Progress} (hp : Begun p) (houter : p.outer ≠ []) :
    (c.place p).close rules = c.embed rules (p.close (rules.inside c.depth)) := by
  obtain ⟨level, outer, memory⟩ := p
  obtain ⟨around, outer, rfl⟩ := List.exists_cons_of_ne_nil houter
  have haround : around ≠ [] := hp.2 around List.mem_cons_self
  cases level with
  | nil => exact (c.embed_fail rules ⟨[], around :: outer, memory⟩ (by simp)).symm
  | cons q level =>
    have hreduce : Level.reduce (rules.inside c.depth) memory q level =
        Level.reduce rules memory q level := Level.reduce_withLimit rules _ memory q level
    simp only [Progress.close, place, surround, hreduce]
    cases h : Level.reduce rules memory q level with
    | error stop =>
      exact congrArg Except.error (Stop.deeper_of_ne (Level.reduce_ne_tooDeep h _) _).symm
    | ok reduced =>
      simp only [embed, Except.map, Except.mapError, place, c.surround_push haround]

theorem read_place (rules : Rules) {p : Progress} (hp : Begun p) {token : Token}
    (hclosing : token = .closing → p.outer ≠ []) :
    (c.place p).read rules token = c.embed rules (p.read (rules.inside c.depth) token) := by
  have hlevel := c.place_level_eq_nil hp
  cases token with
  | closing => exact c.close_place rules hp (hclosing rfl)
  | operator op => exact c.enter_place rules p (some (.operator op))
  | opening =>
    by_cases hnil : p.level = []
    · rw [Progress.read, Progress.read, if_pos (by simpa using hlevel.2 hnil),
        if_pos (by simpa using hnil), c.enter_place]
    · rw [Progress.read, Progress.read, if_neg (by simpa using hlevel.not.2 hnil),
        if_neg (by simpa using hnil)]
      rfl
  | operand text =>
    by_cases hnil : p.level = []
    · rw [Progress.read, Progress.read, if_pos (by simpa using hlevel.2 hnil),
        if_pos (by simpa using hnil), c.enter_place]
    · rw [Progress.read, Progress.read, if_neg (by simpa using hlevel.not.2 hnil),
        if_neg (by simpa using hnil), c.take_place rules hnil]

end Surroundings

namespace Progress

variable {rules : Rules}

inductive Moves (rules : Rules) : Progress → Token → Progress → Prop
  | opening {level outer memory} : level ≠ [] →
      Moves rules ⟨level, outer, memory⟩ .opening ⟨[], level :: outer, memory⟩
  | closing {p rest around outer memory x after} :
      Level.reduce rules memory p rest = .ok (x, after) →
      Moves rules ⟨p :: rest, around :: outer, memory⟩ .closing
        ⟨Level.push around x, outer, after⟩
  | operator {op level outer memory} :
      Moves rules ⟨level, outer, memory⟩ (.operator op) ⟨⟨op, []⟩ :: level, outer, memory⟩
  | operand {text x level outer memory} : level ≠ [] →
      operandValue? memory.answer text = some x →
      Moves rules ⟨level, outer, memory⟩ (.operand text) ⟨Level.push level x, outer, memory⟩

theorem moves_of_read {p q : Progress} {token : Token} (h : p.read rules token = .ok q) :
    Moves rules p token q := by
  obtain ⟨level, outer, memory⟩ := p
  cases token with
  | operator op =>
    rw [read_operator] at h
    split at h
    · cases h
    · cases h
      exact .operator
  | opening =>
    rw [read] at h
    split at h
    · exact absurd h (enter_ne_ok _ (by simp))
    · rename_i hlevel
      cases h
      exact .opening (by simpa using hlevel)
  | operand text =>
    rw [read] at h
    split at h
    · exact absurd h (enter_ne_ok _ (by simp))
    · rename_i hlevel
      rw [take] at h
      split at h
      · rename_i x hx
        cases h
        exact .operand (by simpa using hlevel) hx
      · cases h
  | closing =>
    cases level with
    | nil =>
      cases outer with
      | nil => exact absurd h (enter_ne_ok (some .closing) (by simp))
      | cons around outer => cases h
    | cons r rest =>
      cases outer with
      | nil => cases h
      | cons around outer =>
        simp only [read, close] at h
        split at h
        · cases h
        · rename_i hreduce
          cases h
          exact .closing hreduce

inductive Fails : Progress → Token → CalcError → Prop
  | entry {p token error} : error.OfEntry → Fails p token error
  | empty {p} : Fails p .closing .emptyParentheses
  | unmatched {p} : p.outer = [] → Fails p .closing .unmatchedClosing
  | reduction {p error} : error.OfReduction → Fails p .closing error
  | operand {p text} : operandValue? p.memory.answer text = none →
      Fails p (.operand text) (.invalidNumber text)

theorem ofEntry_of_enter {p : Progress} {token : Option Token} {error : CalcError}
    {after : Memory} (h : p.enter rules token = .error ⟨.reported error, after⟩) :
    error.OfEntry := by
  unfold enter at h
  split at h
  · exact .inl (Failure.exists_of_tooDeep (Stop.mk.inj (Except.error.inj h)).1)
  · split at h
    · cases h
    · cases h
      exact .inr ⟨_, rfl⟩

theorem fails_of_read {p : Progress} {token : Token} {error : CalcError} {after : Memory}
    (h : p.read rules token = .error ⟨.reported error, after⟩) : Fails p token error := by
  cases token with
  | operator op =>
    change p.enter rules (some (.operator op)) = _ at h
    exact .entry (ofEntry_of_enter h)
  | opening =>
    rw [read] at h
    split at h
    · exact .entry (ofEntry_of_enter h)
    · cases h
  | operand text =>
    rw [read] at h
    split at h
    · exact .entry (ofEntry_of_enter h)
    · rw [take] at h
      split at h
      · cases h
      · rename_i hnone
        cases h
        exact .operand hnone
  | closing =>
    change p.close rules = _ at h
    rw [close] at h
    split at h
    · exact .entry (ofEntry_of_enter h)
    · cases h
      exact .empty
    · rename_i houter
      cases h
      exact .unmatched houter
    · split at h
      · rename_i hreduce
        cases h
        exact .reduction (Level.ofReduction hreduce rfl)
      · cases h

theorem error_of_reduceAll {memory after : Memory} {level : Level} {outer : List Level}
    {error : CalcError} (h : reduceAll rules memory level outer = .error ⟨.reported error, after⟩) :
    error.OfEntry ∨ error.OfReduction := by
  induction outer generalizing level memory with
  | nil =>
    cases level with
    | nil =>
      cases h
      exact .inl (.inr ⟨_, rfl⟩)
    | cons p rest => exact .inr (Level.ofReduction h rfl)
  | cons around outer ih =>
    cases level with
    | nil =>
      cases h
      exact .inl (.inr ⟨_, rfl⟩)
    | cons p rest =>
      rw [reduceAll_cons] at h
      rcases bind_eq_error h with hreduce | ⟨reduced, -, hrest⟩
      · exact .inr (Level.ofReduction hreduce rfl)
      · exact ih hrest

theorem error_of_finish {p : Progress} {error : CalcError} {after : Memory}
    (h : p.finish rules = .error ⟨.reported error, after⟩) :
    error.OfEntry ∨ error.OfReduction := by
  rw [finish] at h
  split at h
  · split at h
    · rename_i henter
      cases h
      exact .inl (ofEntry_of_enter henter)
    · exact error_of_reduceAll h
  · exact error_of_reduceAll h

theorem Moves.closes_iff {p q : Progress} {token : Token} (h : Moves rules p token q)
    (tail : List Token) : Text.Closes p.outer.length (Token.outline (token :: tail)) ↔
      Text.Closes q.outer.length (Token.outline tail) := by
  cases h with
  | opening => exact Token.closes_outline_opening
  | closing =>
    exact Token.closes_outline_closing.trans (and_iff_right (Nat.succ_pos _))
  | operator => exact Token.closes_outline_operator
  | operand => exact Token.closes_outline_operand

theorem Moves.begun {p q : Progress} {token : Token} (h : Moves rules p token q)
    (hp : Surroundings.Begun p) : Surroundings.Begun q := by
  obtain ⟨hlevel, houter⟩ := hp
  cases h with
  | opening hne => exact ⟨nofun, List.forall_mem_cons.2 ⟨hne, houter⟩⟩
  | closing =>
    obtain ⟨haround, houter⟩ := List.forall_mem_cons.1 houter
    exact ⟨fun _ => Level.push_ne_nil haround _, houter⟩
  | operator => exact ⟨fun _ => List.cons_ne_nil _ _, houter⟩
  | operand hne => exact ⟨fun _ => Level.push_ne_nil hne _, houter⟩

theorem closes_of_readAll {p q : Progress} {tokens tail : List Token}
    (h : p.readAll rules tokens = .ok q) :
    Text.Closes p.outer.length (Token.outline (tokens ++ tail)) ↔
      Text.Closes q.outer.length (Token.outline tail) := by
  induction tokens generalizing p with
  | nil =>
    obtain rfl := Except.ok.inj h
    rfl
  | cons token tokens ih =>
    obtain ⟨next, hread, hrest⟩ := exists_of_readAll_cons h
    exact ((moves_of_read hread).closes_iff (tokens ++ tail)).trans (ih hrest)

theorem begun_of_readAll {p q : Progress} {tokens : List Token}
    (h : p.readAll rules tokens = .ok q) (hp : Surroundings.Begun p) : Surroundings.Begun q := by
  induction tokens generalizing p with
  | nil =>
    obtain rfl := Except.ok.inj h
    exact hp
  | cons token tokens ih =>
    obtain ⟨next, hread, hrest⟩ := exists_of_readAll_cons h
    exact ih hrest ((moves_of_read hread).begun hp)

end Progress

theorem Progress.exists_level_of_readAll {rules : Rules} {p q : Progress} {tokens : List Token}
    (hp : Surroundings.Begun p) (houter : p.outer = []) (hbalanced : Token.Balanced tokens)
    (h : p.readAll rules tokens = .ok q) :
    ∃ r level memory, q = ⟨r :: level, [], memory⟩ := by
  have hq := begun_of_readAll h hp
  have hcloses := @closes_of_readAll rules p q tokens [] h
  rw [List.append_nil, houter] at hcloses
  have hnil : q.outer = [] := List.length_eq_zero_iff.1
    (Token.closes_outline_nil.1 (hcloses.1 (Token.balanced_iff_closes.1 hbalanced)))
  obtain ⟨r, level, hlevel⟩ := List.exists_cons_of_ne_nil (hq.1 hnil)
  obtain ⟨_, _, memory⟩ := q
  dsimp only at hnil hlevel
  subst hnil hlevel
  exact ⟨r, level, memory, rfl⟩

theorem Surroundings.readAll_place (c : Surroundings) (rules : Rules) {p : Progress}
    (hp : Begun p) {tokens : List Token}
    (h : Text.Closes p.outer.length (Token.outline tokens)) :
    (c.place p).readAll rules tokens = c.embed rules (p.readAll (rules.inside c.depth) tokens) := by
  -- The tokens left close exactly the levels around the current one, so that none of them closes a
  -- level of the surroundings; and these levels have all begun, so that no operator is missing.
  induction tokens generalizing p with
  | nil => rfl
  | cons token tokens ih =>
    have hclosing : token = .closing → p.outer ≠ [] := by
      rintro rfl
      exact List.ne_nil_of_length_pos (Token.closes_outline_closing.1 h).1
    have hplace := c.read_place rules hp hclosing
    cases hread : p.read (rules.inside c.depth) token with
    | error stop =>
      rw [hread] at hplace
      rw [Progress.readAll_cons_error hread, Progress.readAll_cons_error hplace]
      rfl
    | ok q =>
      have hmoves := Progress.moves_of_read hread
      rw [hread] at hplace
      rw [Progress.readAll_cons_ok hread, Progress.readAll_cons_ok hplace]
      exact ih (hmoves.begun hp) ((hmoves.closes_iff tokens).1 h)

def evaluateInside (rules : Rules) (n : Nat) (memory : Memory) (tokens : List Token) : Outcome :=
  (evaluateTokens (rules.inside n) memory tokens).mapError (rules.deeper n)

theorem Level.mapError_reduce (rules : Rules) (n : Nat) (memory : Memory) (p : Pending)
    (rest : Level) :
    (Level.reduce (rules.inside n) memory p rest).mapError (rules.deeper n) =
      Level.reduce rules memory p rest := by
  rw [Rules.inside, Level.reduce_withLimit]
  cases h : Level.reduce rules memory p rest with
  | error stop => exact congrArg Except.error (Stop.deeper_of_ne (Level.reduce_ne_tooDeep h _) _)
  | ok reduced => rfl

namespace Progress

variable {rules : Rules} {inner : List Token}

theorem readAll_expression {α : Type} (c : Surroundings) (hinner : Token.Balanced inner)
    (op : Operator) (memory : Memory) {finish : Progress → Except Stop α}
    {next : Double × Memory → Except Stop α}
    (hfinish : ∀ q level memory, finish ⟨q :: (level ++ c.rest), c.outer, memory⟩ =
      (Level.reduce rules memory q level).bind next) :
    (readAll rules ⟨c.rest, c.outer, memory⟩ (.operator op :: inner)).bind finish =
      (evaluateInside rules c.depth memory (.operator op :: inner)).bind next := by
  have hplace : read rules ⟨c.rest, c.outer, memory⟩ (.operator op) =
      c.embed rules ((start memory).read (rules.inside c.depth) (.operator op)) :=
    c.enter_place rules (start memory) (some (.operator op))
  rw [evaluateInside, evaluateTokens]
  cases hread : (start memory).read (rules.inside c.depth) (.operator op) with
  | error stop =>
    rw [hread] at hplace
    rw [readAll_cons_error hread, readAll_cons_error hplace]
    rfl
  | ok p =>
    rw [hread] at hplace
    obtain ⟨hp, houter⟩ : Surroundings.Begun p ∧ p.outer = [] := by
      cases moves_of_read hread with
      | operator => exact ⟨⟨fun _ => List.cons_ne_nil _ _, List.forall_mem_nil _⟩, rfl⟩
    have hcloses : Text.Closes p.outer.length (Token.outline inner) := by
      rw [houter]
      exact Token.balanced_iff_closes.1 hinner
    rw [readAll_cons_ok hread, readAll_cons_ok hplace, c.readAll_place rules hp hcloses]
    cases hreadAll : p.readAll (rules.inside c.depth) inner with
    | error stop => rfl
    | ok q =>
      obtain ⟨r, level, after, rfl⟩ := exists_level_of_readAll hp houter hinner hreadAll
      have hreduce := Level.mapError_reduce rules c.depth after r level
      change finish ⟨r :: (level ++ c.rest), c.outer, after⟩ =
        ((Level.reduce (rules.inside c.depth) after r level).mapError (rules.deeper c.depth)).bind
          next
      rw [hfinish]
      exact congrArg (Except.bind · next) hreduce.symm

theorem readAll_group (hinner : Token.Balanced inner) (op : Operator) (p : Pending) (rest : Level)
    (outer : List Level) (memory : Memory) (tail : List Token) :
    readAll rules ⟨p :: rest, outer, memory⟩
        (.opening :: .operator op :: (inner ++ .closing :: tail)) =
      (evaluateInside rules (rest.length + 1 + outer.flatten.length) memory
        (.operator op :: inner)).bind fun reduced =>
          readAll rules ⟨p.push reduced.1 :: rest, outer, reduced.2⟩ tail := by
  have hdepth : (Surroundings.mk [] ((p :: rest) :: outer)).depth =
      rest.length + 1 + outer.flatten.length := by
    simp only [Surroundings.depth, List.length_nil, List.flatten_cons, List.length_append,
      List.length_cons, Nat.zero_add]
  have hopening : read rules ⟨p :: rest, outer, memory⟩ .opening =
    .ok ⟨[], (p :: rest) :: outer, memory⟩ := rfl
  rw [readAll_cons_ok hopening, ← List.cons_append, readAll_append, ← hdepth]
  refine readAll_expression ⟨[], (p :: rest) :: outer⟩ hinner op memory fun q level after => ?_
  rw [List.append_nil, readAll_closing]
  rfl

theorem readAll_last {α : Type} (hinner : Token.Balanced inner) (op : Operator) (p : Pending)
    (rest : Level) (outer : List Level) (memory : Memory) {finish : Progress → Except Stop α}
    {next : Double × Memory → Except Stop α}
    (hfinish : ∀ q level memory, finish ⟨q :: level, outer, memory⟩ =
      (Level.reduce rules memory q level).bind next) :
    (readAll rules ⟨p :: rest, outer, memory⟩ (.operator op :: inner)).bind finish =
      (evaluateInside rules (rest.length + 1 + outer.flatten.length) memory
        (.operator op :: inner)).bind fun reduced =>
          finish ⟨p.push reduced.1 :: rest, outer, reduced.2⟩ := by
  refine readAll_expression ⟨p :: rest, outer⟩ hinner op memory fun q level after => ?_
  rw [hfinish, Level.reduce_append, bind_bind]
  congr 1
  funext reduced
  exact (hfinish (p.push reduced.1) rest reduced.2).symm

end Progress

end PolishCalc
