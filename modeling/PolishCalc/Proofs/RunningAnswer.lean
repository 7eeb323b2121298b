import PolishCalc.Proofs.Failure
import PolishCalc.Proofs.Parsing

namespace PolishCalc

theorem constant?_answerName (answer : Double) : constant? answer answerName = some answer :=
  if_pos rfl

theorem operandValue?_answerName (answer : Double) :
    operandValue? answer answerName = some answer := by
  rw [operandValue?, constant?_answerName, Option.some_or]

theorem operandValue?_eq {text : Text} (h : text ≠ answerName) (answer answer' : Double) :
    operandValue? answer text = operandValue? answer' text := by
  simp only [operandValue?, constant?, if_neg h]

def nearestClosing? (tokens : List Token) : Nat → Option Nat
  | 0 => none
  | p + 1 => if tokens[p]? = some .closing then some p else nearestClosing? tokens p

section

variable (tokens : List Token) (closed : Nat → Double) (before : Double)

def heldAt (p : Nat) : Double :=
  ((nearestClosing? tokens p).map closed).getD before

def Operands.complete (operands : Operands) (held : Double) (values : List Double) :
    List Double :=
  match operands, values with
  | .chain _ _, [x] => [x, x]
  | _, [x] => [held, x]
  | _, values => values

/-- Operands that begin at a position have these values, after these reductions of the expressions
nested in them. -/
inductive Operands.Explained : Nat → Operands → List Double → List Reduction → Prop
  | empty {p} : Explained p .empty [] []
  | answer {p rest values rs} : Explained (p + 1) rest values rs →
      Explained p (.word answerName rest) (heldAt tokens closed before p :: values) rs
  | word {p text rest x values rs} : text ≠ answerName →
      (∀ answer, operandValue? answer text = some x) → Explained (p + 1) rest values rs →
      Explained p (.word text rest) (x :: values) rs
  | group {p op inner rest innerValues values x rs rs'} :
      Explained (p + 2) inner innerValues rs → closed (p + 2 + inner.tokens.length) = x →
      Explained (p + 2 + inner.tokens.length + 1) rest values rs' →
      Explained p (.group op inner rest) (x :: values)
        (rs ++ ⟨op, inner.complete (heldAt tokens closed before (p + 2 + inner.tokens.length))
          innerValues, x⟩ :: rs')
  | chain {p op inner values x rs} : Explained (p + 1) inner values rs →
      Explained p (.chain op inner) [x]
        (rs ++ [⟨op, inner.complete (heldAt tokens closed before (p + 1 + inner.tokens.length))
          values, x⟩])

end

/-- An evaluation of a tree with the value `x`, reduction by reduction: first those of the
expressions in it, then its own. -/
structure Tree.Account (rules : Rules) (memory : Memory) (t : Tree) (closed : Nat → Double)
    (values : List Double) (rs : List Reduction) (x : Double) (after : Memory) : Prop where
  explained : t.operands.Explained t.tokens closed memory.answer 1 values rs
  completed : Completed rules memory
    (rs ++ [⟨t.operator, t.operands.complete
      (heldAt t.tokens closed memory.answer t.tokens.length) values, x⟩]) after

section

variable {tokens : List Token} {closed closed' : Nat → Double} {before : Double} {p : Nat}

theorem nearestClosing?_eq_some_iff {i : Nat} : nearestClosing? tokens p = some i ↔
    i < p ∧ tokens[i]? = some .closing ∧ ∀ j, i < j → j < p → tokens[j]? ≠ some .closing := by
  induction p with
  | zero => simp [nearestClosing?]
  | succ p ih =>
    rw [nearestClosing?]
    split
    · rename_i hclosing
      rw [Option.some.injEq]
      constructor
      · rintro rfl
        exact ⟨Nat.lt_succ_self p, hclosing, fun j hpj hj => by omega⟩
      · rintro ⟨hi, -, hnearest⟩
        by_contra hne
        exact hnearest p (by omega) (Nat.lt_succ_self p) hclosing
    · rename_i hclosing
      rw [ih]
      constructor
      · rintro ⟨hi, htoken, hnearest⟩
        refine ⟨Nat.lt_succ_of_lt hi, htoken, fun j hij hj => ?_⟩
        rcases Nat.lt_succ_iff_lt_or_eq.1 hj with hj | rfl
        · exact hnearest j hij hj
        · exact hclosing
      · rintro ⟨hi, htoken, hnearest⟩
        have hne : i ≠ p := fun h => hclosing (h ▸ htoken)
        exact ⟨by omega, htoken, fun j hij hj => hnearest j hij (Nat.lt_succ_of_lt hj)⟩

theorem heldAt_congr (h : ∀ i < p, closed i = closed' i) :
    heldAt tokens closed before p = heldAt tokens closed' before p := by
  rw [heldAt, heldAt]
  cases hclosing : nearestClosing? tokens p with
  | none => rfl
  | some i => exact h i (nearestClosing?_eq_some_iff.1 hclosing).1

theorem heldAt_succ (h : tokens[p]? ≠ some .closing) :
    heldAt tokens closed before (p + 1) = heldAt tokens closed before p := by
  rw [heldAt, nearestClosing?, if_neg h, heldAt]

theorem heldAt_closing (h : tokens[p]? = some .closing) :
    heldAt tokens closed before (p + 1) = closed p := by
  rw [heldAt, nearestClosing?, if_pos h]
  rfl

end

namespace Operands

def isChained : Operands → Bool
  | .empty => false
  | .word _ rest => rest.isChained
  | .group _ _ rest => rest.isChained
  | .chain _ _ => true

variable {tokens : List Token} {closed closed' : Nat → Double} {before : Double} {p : Nat}
  {operands : Operands} {values : List Double} {rs : List Reduction}

theorem Explained.congr (h : operands.Explained tokens closed before p values rs)
    (hclosed : ∀ i < p + operands.tokens.length, closed i = closed' i) :
    operands.Explained tokens closed' before p values rs := by
  induction h with
  | empty => exact .empty
  | answer _ ih =>
    simp only [Operands.tokens, List.length_cons] at hclosed
    rw [heldAt_congr fun i hi => hclosed i (by omega)]
    exact .answer (ih fun i hi => hclosed i (by omega))
  | word hne hvalue _ ih =>
    simp only [Operands.tokens, List.length_cons] at hclosed
    exact .word hne hvalue (ih fun i hi => hclosed i (by omega))
  | group _ hx _ ihInner ihRest =>
    simp only [Operands.tokens, List.length_cons, List.length_append] at hclosed
    rw [heldAt_congr fun i hi => hclosed i (by omega)]
    refine .group (ihInner fun i hi => hclosed i (by omega)) ?_
      (ihRest fun i hi => hclosed i (by omega))
    rw [← hx]
    exact (hclosed _ (by omega)).symm
  | chain _ ih =>
    simp only [Operands.tokens, List.length_cons] at hclosed
    rw [heldAt_congr fun i hi => hclosed i (by omega)]
    exact .chain (ih fun i hi => hclosed i (by omega))

theorem Explained.chain_or {x : Double} (h : operands.Explained tokens closed before p [x] rs) :
    (∃ op inner, operands = .chain op inner) ∨ operands.isChained = false := by
  cases h with
  | answer hrest => cases hrest with
    | empty => exact .inr rfl
  | word _ _ hrest => cases hrest with
    | empty => exact .inr rfl
  | group _ _ hrest => cases hrest with
    | empty => exact .inr rfl
  | chain => exact .inl ⟨_, _, rfl⟩

end Operands

theorem drop_eq_cons {tokens tail : List Token} {token : Token} {p : Nat}
    (h : tokens.drop p = token :: tail) :
    tokens[p]? = some token ∧ tokens.drop (p + 1) = tail := by
  constructor
  · rw [← List.head?_drop, h]
    rfl
  · rw [← List.tail_drop, h]
    rfl

theorem drop_eq_append {tokens front tail : List Token} {p : Nat}
    (h : tokens.drop p = front ++ tail) :
    tokens.drop (p + front.length) = tail := by
  rw [← List.drop_drop, h, List.drop_left]

theorem Completed.trans {rules : Rules} {start middle after : Memory} {rs rs' : List Reduction}
    (h : Completed rules start rs middle) (h' : Completed rules middle rs' after) :
    Completed rules start (rs ++ rs') after := by
  induction h' with
  | none => rwa [List.append_nil]
  | next _ hlast ih =>
    rw [← List.append_assoc]
    exact ih.next hlast

structure Operands.Account (rules : Rules) (tokens : List Token) (closed : Nat → Double)
    (before : Double) (p : Nat) (memory : Memory) (operands : Operands) (values : List Double)
    (rs : List Reduction) (after : Memory) : Prop where
  explained : operands.Explained tokens closed before p values rs
  completed : Completed rules memory rs after
  held : operands.isChained = false →
    after.answer = heldAt tokens closed before (p + operands.tokens.length)
  chained : ∀ op inner, operands = .chain op inner → values = [after.answer]

namespace Operands

variable {rules : Rules} {tokens : List Token} {closed closed' : Nat → Double} {before : Double}
  {p : Nat} {memory after : Memory} {operands : Operands} {values : List Double}
  {rs : List Reduction}

theorem Account.congr (h : operands.Account rules tokens closed before p memory values rs after)
    (hclosed : ∀ i < p + operands.tokens.length, closed i = closed' i) :
    operands.Account rules tokens closed' before p memory values rs after where
  explained := h.explained.congr hclosed
  completed := h.completed
  held hchained := (h.held hchained).trans (heldAt_congr hclosed)
  chained := h.chained

theorem Account.complete_eq
    (h : operands.Account rules tokens closed before p memory values rs after) (op : Operator) :
    Pending.complete ⟨op, values.reverse⟩ after.answer =
      operands.complete (heldAt tokens closed before (p + operands.tokens.length)) values := by
  rcases values with _ | ⟨x, _ | ⟨y, values⟩⟩
  · cases operands <;> rfl
  · rcases h.explained.chain_or with ⟨op', inner, rfl⟩ | hchained
    · rw [← (List.cons.inj (h.chained op' inner rfl)).1]
      rfl
    · rw [← h.held hchained]
      cases operands with
      | chain op' inner => cases hchained
      | _ => rfl
  · rw [Computation.complete_reverse, if_neg (by simp)]
    cases operands <;> rfl

theorem Account.reduce (h : operands.Account rules tokens closed before p memory values rs after)
    {op : Operator} {x : Double} {last : Memory}
    (hreduce : Pending.reduce rules after ⟨op, values.reverse⟩ = .ok (x, last)) :
    last.answer = x ∧ Completed rules memory (rs ++ [⟨op, operands.complete
      (heldAt tokens closed before (p + operands.tokens.length)) values, x⟩]) last := by
  obtain ⟨-, hcompletes⟩ := Pending.reduce_ok hreduce
  rw [h.complete_eq] at hcompletes
  have hlast := h.completed.next hcompletes
  obtain ⟨y, requests, -, -, -, rfl⟩ := hcompletes
  exact ⟨rfl, hlast⟩

theorem Account.empty (hanswer : memory.answer = heldAt tokens closed before p) :
    Operands.empty.Account rules tokens closed before p memory [] [] memory :=
  ⟨.empty, .none, fun _ => hanswer, by simp⟩

theorem Account.word {text : Text} {rest : Operands} {x : Double}
    (hx : operandValue? (heldAt tokens closed before p) text = some x)
    (h : rest.Account rules tokens closed before (p + 1) memory values rs after) :
    (Operands.word text rest).Account rules tokens closed before p memory (x :: values) rs
      after := by
  refine ⟨?_, h.completed, ?_, by simp⟩
  · by_cases hname : text = answerName
    · subst hname
      rw [operandValue?_answerName] at hx
      rw [← Option.some.inj hx]
      exact .answer h.explained
    · exact .word hname (fun answer => (operandValue?_eq hname answer _).trans hx) h.explained
  · intro hchained
    rw [h.held hchained, Operands.tokens, List.length_cons, Nat.add_right_comm, Nat.add_assoc]

theorem Account.group {op : Operator} {inner rest : Operands} {innerValues : List Double}
    {rs' : List Reduction} {middle reduced : Memory} {x : Double}
    (hinner : inner.Account rules tokens closed before (p + 2) memory innerValues rs middle)
    (hreduce : Pending.reduce rules middle ⟨op, innerValues.reverse⟩ = .ok (x, reduced))
    (hclosed : closed (p + 2 + inner.tokens.length) = x)
    (hrest : rest.Account rules tokens closed before (p + 2 + inner.tokens.length + 1) reduced
      values rs' after) :
    (Operands.group op inner rest).Account rules tokens closed before p memory (x :: values)
      (rs ++ ⟨op, inner.complete (heldAt tokens closed before (p + 2 + inner.tokens.length))
        innerValues, x⟩ :: rs') after := by
  refine ⟨.group hinner.explained hclosed hrest.explained, ?_, ?_, by simp⟩
  · have hcompleted := (hinner.reduce hreduce).2.trans hrest.completed
    rwa [List.append_assoc] at hcompleted
  · intro hchained
    rw [hrest.held hchained]
    congr 1
    simp only [Operands.tokens, List.length_cons, List.length_append]
    omega

theorem Account.chain {op : Operator} {middle reduced : Memory} {x : Double}
    (h : operands.Account rules tokens closed before (p + 1) memory values rs middle)
    (hreduce : Pending.reduce rules middle ⟨op, values.reverse⟩ = .ok (x, reduced)) :
    (Operands.chain op operands).Account rules tokens closed before p memory [x]
      (rs ++ [⟨op, operands.complete
        (heldAt tokens closed before (p + 1 + operands.tokens.length)) values, x⟩]) reduced := by
  obtain ⟨hx, hcompleted⟩ := h.reduce hreduce
  exact ⟨.chain h.explained, hcompleted, by simp [isChained], fun _ _ _ => by rw [hx]⟩

theorem exists_account {level : Nat} {pending : Pending} {collected : Pending × Memory}
    {tail : List Token} (hcollect : operands.collect rules level pending memory = .ok collected)
    (htokens : tokens.drop p = operands.tokens ++ tail)
    (hanswer : memory.answer = heldAt tokens closed before p) :
    ∃ closed' values rs, (∀ i < p, closed i = closed' i) ∧
      operands.Account rules tokens closed' before p memory values rs collected.2 ∧
      collected.1 = ⟨pending.operator, values.reverse ++ pending.operands⟩ := by
  -- Every operand starts where the one before it ended, with what is known to be closed by then.
  induction operands generalizing level pending memory collected p closed tail with
  | empty =>
    obtain rfl := Except.ok.inj hcollect
    exact ⟨closed, [], [], fun _ _ => rfl, .empty hanswer, rfl⟩
  | word text rest ih =>
    obtain ⟨htoken, htail⟩ := drop_eq_cons htokens
    rw [collect] at hcollect
    split at hcollect
    · rename_i x hx
      have hnext : memory.answer = heldAt tokens closed before (p + 1) := by
        rw [heldAt_succ (by simp [htoken])]
        exact hanswer
      obtain ⟨closed', values, rs, hclosed, haccount, hpending⟩ := ih hcollect htail hnext
      have hbelow : ∀ i < p, closed i = closed' i := fun i hi => hclosed i (by omega)
      rw [hanswer, heldAt_congr hbelow] at hx
      refine ⟨closed', x :: values, rs, hbelow, haccount.word hx, ?_⟩
      simp [hpending, Pending.push]
    · cases hcollect
  | group op inner rest ihInner ihRest =>
    rw [Operands.tokens, List.cons_append, List.cons_append, List.append_assoc] at htokens
    obtain ⟨hopening, htokens⟩ := drop_eq_cons htokens
    obtain ⟨hoperator, hinner⟩ := drop_eq_cons htokens
    obtain ⟨hclosing, hrest⟩ := drop_eq_cons (drop_eq_append hinner)
    rw [collect] at hcollect
    split at hcollect
    · cases hcollect
    obtain ⟨collectedInner, hcollectInner, hcollect⟩ := bind_eq_ok hcollect
    obtain ⟨⟨x, reduced⟩, hreduce, hcollect⟩ := bind_eq_ok hcollect
    have hstart : memory.answer = heldAt tokens closed before (p + 2) := by
      rw [heldAt_succ (by simp [hoperator]), heldAt_succ (by simp [hopening])]
      exact hanswer
    obtain ⟨closedInner, innerValues, rs, hclosedInner, haccountInner, hpendingInner⟩ :=
      ihInner hcollectInner hinner hstart
    rw [hpendingInner, List.append_nil] at hreduce
    -- From here on the group is known to have been closed with its value.
    let closing := p + 2 + inner.tokens.length
    let closedGroup := Function.update closedInner closing x
    have hgroup : ∀ i < closing, closedInner i = closedGroup i := fun i hi =>
      (Function.update_of_ne (Nat.ne_of_lt hi) x closedInner).symm
    have hvalue : closedGroup closing = x := Function.update_self closing x closedInner
    have hnext : reduced.answer = heldAt tokens closedGroup before (closing + 1) := by
      rw [heldAt_closing hclosing, hvalue]
      exact (haccountInner.reduce hreduce).1
    obtain ⟨closed', values, rs', hclosed, haccount, hpending⟩ := ihRest hcollect hrest hnext
    replace haccountInner := haccountInner.congr fun i hi =>
      (hgroup i hi).trans (hclosed i (by omega))
    have hvalue' : closed' closing = x := (hclosed closing (by omega)).symm.trans hvalue
    refine ⟨closed', x :: values, _, fun i hi => ?_,
      haccountInner.group hreduce hvalue' haccount, ?_⟩
    · rw [hclosedInner i (by omega), hgroup i (by omega), hclosed i (by omega)]
    · simp [hpending, Pending.push]
  | chain op inner ih =>
    obtain ⟨hoperator, htail⟩ := drop_eq_cons htokens
    rw [collect] at hcollect
    split at hcollect
    · cases hcollect
    obtain ⟨collectedInner, hcollectInner, hcollect⟩ := bind_eq_ok hcollect
    obtain ⟨⟨x, reduced⟩, hreduce, rfl⟩ := map_eq_ok hcollect
    have hstart : memory.answer = heldAt tokens closed before (p + 1) := by
      rw [heldAt_succ (by simp [hoperator])]
      exact hanswer
    obtain ⟨closed', values, rs, hclosed, haccount, hpending⟩ := ih hcollectInner htail hstart
    rw [hpending, List.append_nil] at hreduce
    exact ⟨closed', [x], _, fun i hi => hclosed i (by omega), haccount.chain hreduce, rfl⟩

end Operands

theorem Tree.exists_account {rules : Rules} {memory after : Memory} {t : Tree} {x : Double}
    (h : t.evaluate rules memory = .ok (x, after)) :
    ∃ closed values rs, t.Account rules memory closed values rs x after := by
  rw [evaluate] at h
  split at h
  · cases h
  obtain ⟨collected, hcollect, hreduce⟩ := bind_eq_ok h
  have htokens : t.tokens.drop 1 = t.operands.tokens ++ [] := (List.append_nil _).symm
  have hstart : memory.answer = heldAt t.tokens (fun _ => .zero) memory.answer 1 := rfl
  obtain ⟨closed, values, rs, -, haccount, hpending⟩ :=
    Operands.exists_account hcollect htokens hstart
  rw [hpending, List.append_nil] at hreduce
  have hlength : t.tokens.length = 1 + t.operands.tokens.length := Nat.add_comm _ _
  refine ⟨closed, values, rs, haccount.explained, ?_⟩
  rw [hlength]
  exact (haccount.reduce hreduce).2

namespace Session

/-- A line that evaluates is that of a tree, whose evaluation has an account: each `ans` in it is
the value of the group that the nearest closing parenthesis before it closes, or the answer that the
session had, and so is the first operand of a reduction that lacks it, as of the end of its
operands, unless its only one is an expression without parentheses. -/
theorem account_of_outcome (settings : Settings) (source : Source) (s : Session) (line : Text)
    (traced : Bool) (precision maxDepth : Option Int) (x : Double) (after : Memory)
    (h : s.outcome settings source line traced (.ofPrecision precision) maxDepth = .ok (x, after)) :
    ∃ (t : Tree) (closed : Nat → Double) (values : List Double) (rs : List Reduction),
      readLine settings.maxInputLength line = .ok t.tokens ∧
        t.Account (s.rules settings source precision maxDepth) (s.memory traced) closed values rs x
          after := by
  rw [outcome_eq] at h
  obtain ⟨t, hwell, -, hspaced, hlength⟩ := exists_tree_of_evaluateLine h
  have hread := hwell.readLine_spaced hspaced hlength
  rw [hwell.grammatical.evaluateLine_eq hspaced hlength] at h
  obtain ⟨closed, values, rs, haccount⟩ := Tree.exists_account h
  exact ⟨t, closed, values, rs, hread, haccount⟩

theorem account_of_outcome_group :
    let t : Tree :=
      ⟨.add, .group .multiply (.word ['2'] (.word ['3'] .empty)) (.word answerName .empty)⟩
    let outcome :=
      (fresh .usual).outcome .usual .lowest "+ (* 2 3) ans".toList false (.ofPrecision none) none
    ∃ closed x rs after, outcome = .ok (.ofNat 12, after) ∧
      t.Account ((fresh .usual).rules .usual .lowest none none) ((fresh .usual).memory false) closed
        [x, x] rs (.ofNat 12) after := by
  intro t outcome
  have hresult : Outcome.result outcome = .ok (.ofNat 12) := by decide +kernel
  have hread : readLine Settings.usual.maxInputLength "+ (* 2 3) ans".toList = .ok t.tokens := by
    decide
  obtain ⟨after, houtcome⟩ := Outcome.result_eq_ok hresult
  obtain ⟨t', closed, values, rs, hread', haccount⟩ :=
    account_of_outcome .usual .lowest _ _ false none none _ _ houtcome
  obtain rfl : t = t' := Tree.tokens_injective (Except.ok.inj (hread.symm.trans hread'))
  obtain ⟨x, rfl⟩ : ∃ x, values = [x, x] := by
    cases haccount.explained with
    | @group _ _ _ _ _ _ x _ _ _ hx hrest =>
      cases hrest with
      | word hname => exact absurd rfl hname
      | answer hempty =>
        cases hempty
        exact ⟨x, congrArg (fun y => [x, y]) hx⟩
  exact ⟨closed, x, rs, after, houtcome, haccount⟩

end Session

end PolishCalc
