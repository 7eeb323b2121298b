import PolishCalc.Proofs.Application
import PolishCalc.Proofs.Descent.Positions
import PolishCalc.Proofs.Lockstep
import PolishCalc.Proofs.Meaning

namespace PolishCalc

namespace Descent

namespace Account

variable {α β : Type} (a : Account α)

theorem outcome_after (events : List Event) : (a.after events).outcome = a.outcome := rfl

theorem outcome_map (f : α → β) : (a.map f).outcome = a.outcome.map f := rfl

theorem outcome_bind (f : α → Account β) :
    (a.bind f).outcome = a.outcome.bind fun x => (f x).outcome := by
  rw [bind]
  cases a.outcome <;> rfl

theorem outcome_calling {low : Nat} (routine : Routine) (caller : Option (Routine × Nat))
    (start : Nat) (a : Account (Reached low)) :
    (calling routine caller start a).outcome = a.outcome := rfl

end Account

theorem bind_map {ε α β γ : Type} (x : Except ε α) (f : α → β) (g : β → Except ε γ) :
    (x.map f).bind g = x.bind fun a => g (f a) := by
  cases x <;> rfl

theorem bind_congr_ok {ε α β : Type} {x : Except ε α} {f g : α → Except ε β}
    (h : ∀ a, x = .ok a → f a = g a) : x.bind f = x.bind g := by
  cases x with
  | error e => rfl
  | ok a => exact h a rfl

end Descent

def Level.resume (rules : Rules) (memory : Memory) (x : Double) :
    Level → Except Stop (Double × Memory)
  | [] => .ok (x, memory)
  | next :: rest => Level.reduce rules memory (next.push x) rest

theorem Level.reduce_eq_resume (rules : Rules) (memory : Memory) (p : Pending) (rest : Level) :
    Level.reduce rules memory p rest = (p.reduce rules memory).bind fun reduced =>
      Level.resume rules reduced.2 reduced.1 rest := by
  cases rest with
  | nil =>
    rw [Level.reduce]
    cases p.reduce rules memory <;> rfl
  | cons next rest => exact Level.reduce_cons rules memory p next rest

namespace Descent

variable {rules : Rules} {tokens inner rest tail : List Token} {p : Nat}

/-- Reading `inner` and ending the level in whatever way `finish` does it is an expression or the
operands of one, followed by the rest of the level. -/
structure Agrees (tokens : List Token) (rules : Rules) (inner : List Token) : Prop where
  expression : ∀ {α : Type} (level : Level) (outer : List Level) (finish : Progress → Except Stop α)
    (next : Double × Memory → Except Stop α),
    (∀ q level memory, finish ⟨q :: level, outer, memory⟩ =
      (Level.reduce rules memory q level).bind next) →
    ∀ (caller : Option (Routine × Nat)) (p : Nat) (memory : Memory) (tail : List Token),
      Ahead tokens p (inner ++ tail) → Stops tail → inner ≠ [] →
      (level = [] ∨ ∃ op, inner.head? = some (.operator op)) →
      (Progress.readAll rules ⟨level, outer, memory⟩ inner).bind finish =
        (expression tokens rules caller (level.length + outer.flatten.length + 1) p
          memory).outcome.bind fun r => (Level.resume rules r.memory r.value level).bind next
  operands : ∀ {α : Type} (level : Level) (outer : List Level) (finish : Progress → Except Stop α)
    (next : Double × Memory → Except Stop α),
    (∀ q level memory, finish ⟨q :: level, outer, memory⟩ =
      (Level.reduce rules memory q level).bind next) →
    ∀ (start p : Nat) (pending : Pending) (memory : Memory) (tail : List Token),
      start < p → Ahead tokens p (inner ++ tail) → Stops tail →
      (Progress.readAll rules ⟨pending :: level, outer, memory⟩ inner).bind finish =
        (operands tokens rules start (level.length + 1 + outer.flatten.length) p pending
          memory).outcome.bind fun r => (Level.resume rules r.memory r.value level).bind next

section

variable {α : Type} {level : Level} {outer : List Level} {finish : Progress → Except Stop α}
  {next : Double × Memory → Except Stop α} {memory : Memory} {pending : Pending}

theorem outcome_reduceAt : (reduceAt rules p pending memory).outcome.bind
      (fun r => (Level.resume rules r.memory r.value level).bind next) =
    (Level.reduce rules memory pending level).bind next := by
  rw [Level.reduce_eq_resume, reduceAt, bind_map, bind_bind]

theorem agrees_invalid (token : Token) (hinvalid : ∀ op, token ≠ .operator op)
    (hclosing : token ≠ .closing) (caller : Option (Routine × Nat)) (h : tokens[p]? = some token)
    (rest : List Token) :
    (Progress.readAll rules ⟨[], outer, memory⟩ (token :: rest)).bind finish =
      (expression tokens rules caller (outer.flatten.length + 1) p memory).outcome.bind
        fun r => (Level.resume rules r.memory r.value []).bind next := by
  have hread : Progress.read rules ⟨[], outer, memory⟩ token =
      Progress.enter rules ⟨[], outer, memory⟩ (some token) := by
    cases token with
    | closing => exact absurd rfl hclosing
    | _ => rfl
  have hnot : ∀ op, tokens[p]? ≠ some (.operator op) := fun op hop =>
    hinvalid op (Option.some.inj (h.symm.trans hop))
  have hdepth : (Progress.depth ⟨[], outer, memory⟩ : Int) + 1 =
      ((outer.flatten.length + 1 : Nat) : Int) := by
    simp [Progress.depth]
  rw [expression_invalid hnot, h, Option.map_some, Account.outcome_calling]
  rw [Progress.enter.eq_def, hdepth] at hread
  by_cases hdeep : rules.maxDepth < ((outer.flatten.length + 1 : Nat) : Int)
  · rw [if_pos hdeep] at hread ⊢
    rw [Progress.readAll_cons_error hread]
    rfl
  · rw [if_neg hdeep] at hread ⊢
    cases token with
    | operator op => exact absurd rfl (hinvalid op)
    | _ =>
      rw [Progress.readAll_cons_error hread]
      rfl

theorem agrees_operator {op : Operator} (ih : Agrees tokens rules rest)
    (hfinish : ∀ q level memory, finish ⟨q :: level, outer, memory⟩ =
      (Level.reduce rules memory q level).bind next) (caller : Option (Routine × Nat))
    (h : Ahead tokens p (.operator op :: (rest ++ tail))) (htail : Stops tail) :
    (Progress.readAll rules ⟨level, outer, memory⟩ (.operator op :: rest)).bind finish =
      (expression tokens rules caller (level.length + outer.flatten.length + 1) p
        memory).outcome.bind fun r => (Level.resume rules r.memory r.value level).bind next := by
  have hread := Progress.read_operator rules op level outer memory
  rw [expression_operator h.getElem?, Account.outcome_calling]
  by_cases hdeep : rules.maxDepth < ((level.length + outer.flatten.length + 1 : Nat) : Int)
  · rw [if_pos (by push_cast at hdeep ⊢; exact hdeep)] at hread
    rw [if_pos hdeep, Progress.readAll_cons_error hread]
    rfl
  · rw [if_neg (by push_cast at hdeep ⊢; exact hdeep)] at hread
    rw [if_neg hdeep, Progress.readAll_cons_ok hread, Account.outcome_after]
    have hoperands := ih.operands level outer finish next hfinish p (p + 1) ⟨op, []⟩ memory tail
      (Nat.lt_succ_self p) h.next htail
    rwa [Nat.add_right_comm] at hoperands

theorem agrees_group (hinner : Token.Nested inner) (ih : Agrees tokens rules inner) (start : Nat)
    (h : Ahead tokens p (.opening :: (inner ++ .closing :: tail))) :
    (Progress.readAll rules ⟨pending :: level, outer, memory⟩
        (.opening :: (inner ++ .closing :: rest))).bind finish =
      (group tokens rules start (level.length + 1 + outer.flatten.length + 1) (p + 1)
        memory).outcome.bind fun r =>
          (Progress.readAll rules ⟨pending.push r.value :: level, outer, r.memory⟩ rest).bind
            finish := by
  have hopening : Progress.read rules ⟨pending :: level, outer, memory⟩ .opening =
    .ok ⟨[], (pending :: level) :: outer, memory⟩ := rfl
  rw [Progress.readAll_cons_ok hopening, Progress.readAll_append, bind_bind, group,
    Account.outcome_calling, Account.outcome_after, h.next.getElem?]
  cases inner with
  | nil =>
    have hempty : Progress.read rules ⟨[], (pending :: level) :: outer, memory⟩ .closing =
      .error ⟨.reported .emptyParentheses, memory⟩ := rfl
    have hnothing : Progress.readAll rules ⟨[], (pending :: level) :: outer, memory⟩ [] =
      .ok ⟨[], (pending :: level) :: outer, memory⟩ := rfl
    rw [List.nil_append, List.head?_cons, if_pos rfl, hnothing, ok_bind,
      Progress.readAll_cons_error hempty]
    rfl
  | cons token inner =>
    have hclosing : (token :: inner ++ .closing :: tail).head? ≠ some .closing := by
      rintro ⟨⟩
      cases hinner
    rw [if_neg hclosing, Account.outcome_map, bind_map]
    have hexpression := ih.expression [] ((pending :: level) :: outer)
      (fun q => (Progress.readAll rules q (.closing :: rest)).bind finish)
      (fun reduced => (Progress.readAll rules
        ⟨pending.push reduced.1 :: level, outer, reduced.2⟩ rest).bind finish)
      (fun q level memory => by rw [Progress.readAll_closing, bind_bind]; rfl)
      (some (.group, p + 1)) (p + 1) memory (.closing :: tail) h.next
      (fun _ hc => (Option.some.inj hc).symm) (List.cons_ne_nil _ _) (.inl rfl)
    have hdepth : ([] : Level).length + ((pending :: level) :: outer).flatten.length =
        level.length + 1 + outer.flatten.length := by
      simp only [List.length_nil, List.flatten_cons, List.length_append, List.length_cons,
        Nat.zero_add]
    rw [hdepth] at hexpression
    exact hexpression

end

theorem agrees_of_nested (hbalanced : Token.Balanced tokens) (rules : Rules)
    (hinner : Token.Nested inner) : Agrees tokens rules inner := by
  induction hinner with
  | nil =>
    constructor
    · intro α level outer finish next hfinish caller p memory tail h htail hne
      exact absurd rfl hne
    · intro α level outer finish next hfinish start p pending memory tail hstart h htail
      rw [operands_stop (h.getElem? ▸ htail), Account.outcome_after, outcome_reduceAt]
      exact hfinish pending level memory
  | @operator op rest hrest ih =>
    constructor
    · intro α level outer finish next hfinish caller p memory tail h htail hne hlevel
      exact agrees_operator ih hfinish caller h htail
    · intro α level outer finish next hfinish start p pending memory tail hstart h htail
      rw [operands_operator h.getElem?, Account.outcome_after, Account.outcome_after,
        Account.outcome_bind, bind_bind,
        agrees_operator ih hfinish (some (.expression, start)) h htail]
      congr 1
      funext r
      rw [Account.outcome_map, bind_map]
      exact outcome_reduceAt.symm
  | @operand text rest hrest ih =>
    constructor
    · intro α level outer finish next hfinish caller p memory tail h htail hne hlevel
      rcases hlevel with rfl | ⟨op, hop⟩
      · rw [agrees_invalid (.operand text) nofun nofun caller h.getElem? rest,
          List.length_nil, Nat.zero_add]
      · cases hop
    · intro α level outer finish next hfinish start p pending memory tail hstart h htail
      rw [operands_operand h.getElem?, Account.outcome_after, Account.outcome_after]
      cases hvalue : operandValue? memory.answer text with
      | none =>
        rw [Progress.readAll_cons_error (Progress.read_operand_none hvalue pending level outer)]
        rfl
      | some x =>
        rw [Progress.readAll_cons_ok (Progress.read_operand hvalue pending level outer),
          Account.outcome_map, bind_map]
        exact ih.operands level outer finish next hfinish start (p + 1) (pending.push x) memory tail
          (Nat.lt_succ_of_lt hstart) h.next htail
  | @group inner rest hinner hrest ihInner ihRest =>
    constructor
    · intro α level outer finish next hfinish caller p memory tail h htail hne hlevel
      rcases hlevel with rfl | ⟨op, hop⟩
      · rw [agrees_invalid .opening nofun nofun caller h.getElem? _,
          List.length_nil, Nat.zero_add]
      · cases hop
    · intro α level outer finish next hfinish start p pending memory tail hstart h htail
      have hgroup : Ahead tokens p (.opening :: (inner ++ .closing :: (rest ++ tail))) := by
        simpa using h
      have hmoves := moves_of_nested hbalanced rules hinner
      rw [operands_opening h.getElem?, Account.outcome_after, Account.outcome_after,
        Account.outcome_bind, bind_bind, agrees_group hinner ihInner start hgroup]
      refine bind_congr_ok fun r hr => ?_
      have hposition := (meets_group hinner hmoves hstart hgroup).value r hr
      have hnext : Ahead tokens r.position (rest ++ tail) := hgroup.past_group hposition
      rw [Account.outcome_map, bind_map]
      exact ihRest.operands level outer finish next hfinish start r.position
        (pending.push r.value) r.memory tail (hstart.trans (Nat.lt_of_succ_lt r.low_le)) hnext htail

theorem outcome_run_nil (rules : Rules) (memory : Memory) :
    (run [] rules memory).outcome.map (fun r => (r.value, r.memory)) =
      evaluateTokens rules memory [] := by
  have hnothing : evaluateTokens rules memory [] = (Progress.start memory).finish rules := rfl
  have hlevel : (Progress.start memory).level.isEmpty = true := rfl
  rw [run, expression_invalid (by simp), Account.outcome_calling, hnothing, Progress.finish,
    if_pos hlevel]
  by_cases hdeep : rules.maxDepth < ((1 : Nat) : Int)
  · have henter : Progress.enter rules (Progress.start memory) none =
      .error ⟨.tooDeep rules.maxDepth, memory⟩ := if_pos hdeep
    rw [if_pos hdeep, henter]
    rfl
  · have henter : Progress.enter rules (Progress.start memory) none =
      .error ⟨.reported (.invalidSymbol none), memory⟩ := if_neg hdeep
    rw [if_neg hdeep, henter]
    rfl

theorem outcome_run (hbalanced : Token.Balanced tokens) (rules : Rules) (memory : Memory) :
    (run tokens rules memory).outcome.map (fun r => (r.value, r.memory)) =
      evaluateTokens rules memory tokens := by
  by_cases hne : tokens = []
  · subst hne
    exact outcome_run_nil rules memory
  have hahead : Ahead tokens 0 (tokens ++ []) := ⟨Nat.zero_le _, (List.append_nil tokens).symm⟩
  have hfinish : ∀ q level memory, Progress.finish rules ⟨q :: level, [], memory⟩ =
      (Level.reduce rules memory q level).bind .ok := by
    intro q level memory
    change Level.reduce rules memory q level = _
    cases Level.reduce rules memory q level <;> rfl
  have hexpression := (agrees_of_nested hbalanced rules hbalanced.nested).expression [] [] _ _
    hfinish none 0 memory [] hahead nofun hne (.inl rfl)
  rw [evaluateTokens, Progress.start, hexpression]
  change _ = (run tokens rules memory).outcome.bind _
  cases (run tokens rules memory).outcome <;> rfl

/-- Positions in the recursive descent, over the tokens of a text that is found to be balanced, with
any answer, random source and limit of depth. It comes to what the tokens come to. A call of
`expression` that returns has moved the position, to the end of the tokens or to the parenthesis
that closes the innermost one open at its start, and a call of `group` that returns has moved it
past the parenthesis that matches its own. What an expression calls starts later than it, and what a
group calls is an expression, where the group starts; so the tokens left go down with every call.
The position is never past the end of the tokens, and no token is taken there. A descent that
succeeds leaves no token. -/
theorem run_disciplined (text : Text) (hbalanced : text.imbalance? = none) (rules : Rules)
    (memory : Memory) :
    let tokens := Token.ofLine text
    let account := run tokens rules memory
    account.outcome.map (fun r => (r.value, r.memory)) = evaluateTokens rules memory tokens ∧
      (∀ c, .call c ∈ account.events → c.Disciplined tokens ∧
        ∀ caller ∈ c.caller, measure tokens (c.routine, c.start) < measure tokens caller) ∧
      (∀ p, .look p ∈ account.events → p ≤ tokens.length) ∧
      (∀ p, .access p ∈ account.events → p < tokens.length) ∧
      ∀ r, account.outcome = .ok r → r.position = tokens.length := by
  intro tokens account
  have htokens : Token.Balanced tokens :=
    Token.balanced_ofLine.2 (Text.imbalance?_eq_none_iff.1 hbalanced)
  have hahead : Ahead tokens 0 (tokens ++ []) := ⟨Nat.zero_le _, (List.append_nil tokens).symm⟩
  have hmeets := (moves_of_nested htokens rules htokens.nested).expression none 1 0 memory [] nofun
    hahead nofun
  refine ⟨outcome_run htokens rules memory, fun c hc => ?_, fun p => hmeets.events (.look p),
    fun p => hmeets.events (.access p), fun r hr => (hmeets.value r hr).trans (Nat.zero_add _)⟩
  have hdisciplined : c.Disciplined tokens := hmeets.events (.call c) hc
  exact ⟨hdisciplined, fun caller => hdisciplined.measure_lt⟩

theorem run_disciplined_nested :
    let text : Text := "+ (- 5 2) * 2 (^ 2 3)".toList
    let rules : Rules := ⟨3, 100, 4, .lowest⟩
    let tokens := Token.ofLine text
    let account := run tokens rules ⟨.zero, [], [], none⟩
    text.imbalance? = none ∧ tokens.length = 13 ∧
      (.call ⟨.group, some (.expression, 0), 2, some 6⟩ ∈ account.events ∧
        ∃ i j, 2 = i + 1 ∧ (Token.outline tokens).Matches i j ∧ 6 = j + 1) ∧
      (.call ⟨.expression, some (.expression, 0), 6, some 13⟩ ∈ account.events ∧
        (Token.outline tokens).EndsLevel 6 13) ∧
      (.call ⟨.expression, some (.group, 9), 9, some 12⟩ ∈ account.events ∧
        (Token.outline tokens).EndsLevel 9 12) ∧
      (.look 13 ∈ account.events ∧ .access 13 ∉ account.events) ∧
      ∃ r, account.outcome = .ok r ∧ r.value = .ofNat 19 ∧ r.position = 13 := by
  intro text rules tokens account
  have hbalanced : text.imbalance? = none := by decide +kernel
  have hlength : tokens.length = 13 := by decide +kernel
  obtain ⟨houtcome, hcalls, -, haccesses, hposition⟩ :=
    run_disciplined text hbalanced rules ⟨.zero, [], [], none⟩
  have hgroup : .call ⟨.group, some (.expression, 0), 2, some 6⟩ ∈ account.events := by
    decide +kernel
  have hnested : .call ⟨.expression, some (.expression, 0), 6, some 13⟩ ∈ account.events := by
    decide +kernel
  have hinner : .call ⟨.expression, some (.group, 9), 9, some 12⟩ ∈ account.events := by
    decide +kernel
  have hlook : .look 13 ∈ account.events := by decide +kernel
  have haccess : .access 13 ∉ account.events := fun h =>
    absurd (haccesses 13 h) (Nat.not_lt.2 hlength.le)
  have hvalue : Outcome.result (evaluateTokens rules ⟨.zero, [], [], none⟩ tokens) =
      .ok (.ofNat 19) := by
    decide +kernel
  obtain ⟨after, hafter⟩ := Outcome.result_eq_ok hvalue
  rw [hafter] at houtcome
  refine ⟨hbalanced, hlength, ⟨hgroup, (hcalls _ hgroup).1.stop 6 rfl⟩,
    ⟨hnested, (hcalls _ hnested).1.stop 13 rfl⟩, ⟨hinner, (hcalls _ hinner).1.stop 12 rfl⟩,
    ⟨hlook, haccess⟩, ?_⟩
  cases hrun : account.outcome with
  | error stop =>
    rw [hrun] at houtcome
    cases houtcome
  | ok r =>
    rw [hrun] at houtcome
    exact ⟨r, rfl, congrArg Prod.fst (Except.ok.inj houtcome), (hposition r hrun).trans hlength⟩

theorem run_start_of_group :
    ¬ ∀ (text : Text) (rules : Rules) (memory : Memory), text.imbalance? = none →
      ∀ c caller, .call c ∈ (run (Token.ofLine text) rules memory).events → c.caller = some caller →
        caller.2 < c.start := by
  intro hlater
  have hcall : .call ⟨.expression, some (.group, 2), 2, some 5⟩ ∈
      (run (Token.ofLine "+ (- 5 2) 1".toList) ⟨3, 100, 4, .lowest⟩
        ⟨.zero, [], [], none⟩).events := by
    decide +kernel
  exact Nat.lt_irrefl 2 (hlater "+ (- 5 2) 1".toList _ _ (by decide +kernel) _ _ hcall rfl)

end Descent

end PolishCalc
