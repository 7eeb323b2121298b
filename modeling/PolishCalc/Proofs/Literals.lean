import Mathlib.Data.List.Induction
import PolishCalc.Proofs.Number.NearestDouble
import PolishCalc.Proofs.Number.Spelling
import PolishCalc.Proofs.Surroundings

namespace PolishCalc

theorem ofDigits_append (front back : List Nat) :
    ofDigits (front ++ back) = ofDigits front * 10 ^ back.length + ofDigits back := by
  induction back using List.reverseRecOn with
  | nil => simp [ofDigits]
  | append_singleton back d ih =>
    have hlast (digits : List Nat) : ofDigits (digits ++ [d]) = 10 * ofDigits digits + d := by
      rw [ofDigits, List.foldl_append]
      rfl
    rw [← List.append_assoc, hlast, hlast, ih, List.length_append, List.length_singleton]
    ring

def Literal.magnitude (literal : Literal) : ℚ :=
  (ofDigits literal.whole + ofDigits literal.fraction / 10 ^ literal.fraction.length) *
    10 ^ literal.exponent

def Spells (text : Text) (x : Double) : Prop :=
  ∃ literal : Literal, literal.Spelled text ∧
    Double.IsNearest literal.negative literal.magnitude x

theorem Literal.isNearest_iff {literal : Literal} {x : Double} :
    Double.IsNearest literal.negative literal.magnitude x ↔ x = literal.toDouble := by
  rw [toDouble, ← Double.isNearest_ofDecimal_iff]
  have hvalue : literal.magnitude = (ofDigits (literal.whole ++ literal.fraction) : Nat) *
      (10 : ℚ) ^ (literal.exponent - literal.fraction.length) := by
    rw [magnitude, ofDigits_append, zpow_sub₀ (by norm_num), zpow_natCast]
    push_cast
    field_simp
  rw [hvalue]

theorem readOperand?_eq_some_iff {text : Text} (h : ∀ c ∈ text, isBlank c = false) {x : Double} :
    Double.readOperand? text = some x ↔ Spells text x ∧ x.isFinite = true := by
  simp only [Spells, Literal.isNearest_iff, ← Literal.read?_eq_some_iff h]
  rw [Double.readOperand?]
  cases Literal.read? text with
  | none => simp
  | some literal =>
    dsimp only
    split
    · rename_i hfinite
      simp only [Option.some.injEq]
      constructor
      · rintro rfl
        exact ⟨⟨literal, rfl, rfl⟩, hfinite⟩
      · rintro ⟨⟨_, rfl, rfl⟩, -⟩
        rfl
    · rename_i hinfinite
      simp only [reduceCtorEq, false_iff, Option.some.injEq]
      rintro ⟨⟨_, rfl, rfl⟩, hfinite⟩
      exact hinfinite hfinite

namespace Progress

variable {rules : Rules} {text : Text} {after : Memory}

theorem operand_of_read {p : Progress} {token : Token}
    (h : p.read rules token = .error ⟨.reported (.invalidNumber text), after⟩) :
    token = .operand text ∧ operandValue? p.memory.answer text = none := by
  cases fails_of_read h with
  | entry hentry => rcases hentry with ⟨limit, hlimit⟩ | ⟨found, hfound⟩ <;> contradiction
  | reduction hreduction => exact absurd rfl (hreduction.ne.2 text)
  | operand hnone => exact ⟨rfl, hnone⟩

theorem operand_of_readAll {p : Progress} {tokens : List Token}
    (h : p.readAll rules tokens = .error ⟨.reported (.invalidNumber text), after⟩) :
    .operand text ∈ tokens ∧ ∃ answer, operandValue? answer text = none := by
  induction tokens generalizing p with
  | nil => cases h
  | cons token tokens ih =>
    cases hread : p.read rules token with
    | error stop =>
      rw [readAll_cons_error hread] at h
      cases h
      obtain ⟨rfl, hnone⟩ := operand_of_read hread
      exact ⟨List.mem_cons_self, _, hnone⟩
    | ok q =>
      rw [readAll_cons_ok hread] at h
      obtain ⟨hmem, hnone⟩ := ih h
      exact ⟨List.mem_cons_of_mem _ hmem, hnone⟩

theorem finish_ne_invalidNumber {p : Progress} :
    p.finish rules ≠ .error ⟨.reported (.invalidNumber text), after⟩ := by
  intro h
  rcases error_of_finish h with (⟨limit, hlimit⟩ | ⟨found, hfound⟩) | hreduction
  · cases hlimit
  · cases hfound
  · exact hreduction.ne.2 text rfl

end Progress

theorem invalidNumber_of_evaluateTokens {rules : Rules} {memory after : Memory}
    {tokens : List Token} {text : Text}
    (h : evaluateTokens rules memory tokens = .error ⟨.reported (.invalidNumber text), after⟩) :
    .operand text ∈ tokens ∧ text ∉ constantNames ∧ Double.readOperand? text = none := by
  rw [evaluateTokens] at h
  rcases bind_eq_error h with hread | ⟨q, -, hfinish⟩
  · obtain ⟨hmem, answer, hnone⟩ := Progress.operand_of_readAll hread
    have hdenotes : ¬ Denotes text := by
      rw [← isSome_operandValue?, hnone]
      exact Bool.false_ne_true
    rw [Denotes, not_or, Bool.not_eq_true, Option.isSome_eq_false_iff,
      Option.isNone_iff_eq_none] at hdenotes
    exact ⟨hmem, hdenotes⟩
  · exact absurd hfinish Progress.finish_ne_invalidNumber

theorem readLine_ne_invalidNumber {maxLength : Int} {line text : Text} :
    readLine maxLength line ≠ .error (.invalidNumber text) := by
  intro h
  by_cases hlong : maxLength < line.length
  · rw [readLine_tooLong hlong] at h
    cases h
  have hlength := Int.not_lt.1 hlong
  by_cases hblank : ∀ c ∈ line, isBlank c = true
  · rw [readLine_blank hlength hblank] at h
    cases h
  by_cases hbalanced : line.Balanced
  · rw [readLine_ok hlength hblank hbalanced] at h
    cases h
  · rcases readLine_unbalanced hlength hblank hbalanced with hline | hline <;>
      · rw [hline] at h
        cases h

theorem isFinite_of_spells {text : Text} (hblank : ∀ c ∈ text, isBlank c = false)
    (h : Double.readOperand? text = none) {x : Double} (hx : Spells text x) :
    x.isFinite = false := by
  rw [← Bool.not_eq_true]
  intro hfinite
  rw [(readOperand?_eq_some_iff hblank).2 ⟨hx, hfinite⟩] at h
  cases h

theorem isBlank_of_mem_ofLine {line text : Text}
    (h : .operand text ∈ Token.ofLine line.pointForComma) : ∀ c ∈ text, isBlank c = false := by
  intro c hc
  have hword := (isOperand_of_mem_ofLine (Text.comma_notMem_pointForComma line) text h).1
  have hbreak := hword.2 c hc
  rw [Text.isBreak, Bool.or_eq_false_iff] at hbreak
  exact hbreak.1

/-- A text without blanks is read as a number if and only if it spells a literal whose nearest
double is finite, and then as that double. So the operand that stops an evaluation, since it is no
number, is among the tokens, names no constant, and spells no such literal. -/
theorem reads_literals :
    (∀ text : Text, (∀ c ∈ text, isBlank c = false) → ∀ x,
      Double.readOperand? text = some x ↔ Spells text x ∧ x.isFinite = true) ∧
    (∀ (rules : Rules) (memory after : Memory) (tokens : List Token) (text : Text),
      (∀ c ∈ text, isBlank c = false) →
      evaluateTokens rules memory tokens = .error ⟨.reported (.invalidNumber text), after⟩ →
      .operand text ∈ tokens ∧ text ∉ constantNames ∧ ∀ x, Spells text x → x.isFinite = false) ∧
    ∀ (settings : Settings) (source : Source) (s : Session) (line : Text) (precision : Operand)
      (maxDepth : Option Int) (after : Memory) (text : Text),
      s.outcome settings source line traced precision maxDepth =
        .error ⟨.reported (.invalidNumber text), after⟩ →
      .operand text ∈ Token.ofLine line.pointForComma ∧ text ∉ constantNames ∧
        ∀ x, Spells text x → x.isFinite = false := by
  refine ⟨fun text hblank x => readOperand?_eq_some_iff hblank, ?_, ?_⟩
  · intro rules memory after tokens text hblank h
    obtain ⟨hmem, hname, hnone⟩ := invalidNumber_of_evaluateTokens h
    exact ⟨hmem, hname, fun x => isFinite_of_spells hblank hnone⟩
  · intro settings source s line precision maxDepth after text h
    rw [Session.outcome] at h
    split at h
    · cases h
    rw [evaluateLine] at h
    split at h
    · rename_i hread
      cases h
      exact absurd hread readLine_ne_invalidNumber
    · rename_i tokens hread
      obtain ⟨-, -, -, rfl⟩ := readLine_eq_ok_iff.1 hread
      obtain ⟨hmem, hname, hnone⟩ := invalidNumber_of_evaluateTokens h
      exact ⟨hmem, hname, fun x => isFinite_of_spells (isBlank_of_mem_ofLine hmem) hnone⟩

theorem reads_literals_usual :
    let large : Text := "1e999".toList
    let outcome :=
      (Session.fresh .usual).outcome .usual .lowest ('+' :: ' ' :: large) false .absent none
    (Outcome.result outcome = .error (.reported (.invalidNumber large)) ∧
        ∀ c ∈ "-.5E+3".toList, isBlank c = false) ∧
      Spells "-.5E+3".toList (Double.ofInt (-500)) ∧
      large ∉ constantNames ∧ ∀ x, Spells large x → x.isFinite = false := by
  intro large outcome
  obtain ⟨hread, -, hlines⟩ := reads_literals
  have hblank : ∀ c ∈ "-.5E+3".toList, isBlank c = false := by
    have hall : "-.5E+3".toList.all (fun c => !isBlank c) = true := rfl
    intro c hc
    simpa using List.all_eq_true.1 hall c hc
  have hvalue : Double.readOperand? "-.5E+3".toList = some (Double.ofInt (-500)) := by
    decide +kernel
  have herror : Outcome.result outcome = .error (.reported (.invalidNumber large)) := by
    decide +kernel
  obtain ⟨after, houtcome⟩ := Outcome.result_eq_error herror
  obtain ⟨-, hname, hspells⟩ := hlines _ _ _ _ _ _ _ _ houtcome
  exact ⟨⟨herror, hblank⟩, ((hread _ hblank _).1 hvalue).1, hname, hspells⟩

end PolishCalc
