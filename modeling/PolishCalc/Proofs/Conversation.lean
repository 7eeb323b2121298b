import PolishCalc.Proofs.Endings
import PolishCalc.Proofs.Failure
import PolishCalc.Proofs.Words

namespace PolishCalc

theorem Session.perform_evaluate (settings : Settings) (source : Source) (s : Session)
    (line : Text) (traced : Bool) :
    let outcome := s.evaluate settings source line
    let traces := s.outcome settings source line traced .absent none
    s.perform settings source (.evaluate line traced .absent none) =
      ((Outcome.result outcome).map fun x => .result x (Outcome.steps traces),
        s.adopt (Outcome.memory outcome)) := by
  dsimp only
  rw [perform, withOutcome, result_outcome, adopt_outcome, evaluate]

theorem History.add_ends (h : History) (text : Text) :
    let added := h.resetCursor.add text
    (added.entries = if h.entries.getLast? = some text then h.entries
      else h.entries.erase text ++ [text]) ∧
    added.cursor = none ∧ added.draft = none ∧ added.sentinel = h.sentinel := by
  dsimp only
  rw [add]
  split
  · rename_i hlast
    exact ⟨(if_pos hlast).symm, rfl, rfl, rfl⟩
  · rename_i hlast
    exact ⟨(if_neg hlast).symm, rfl, rfl, rfl⟩

namespace CommandLine

structure Desk where
  session : Session
  verbose : Bool

def commandWords : List String :=
  ["help", "quit", "exit", "verbose", "precision", "reset", "history", "prev", "next", "ans"]

def leavingWords : List String :=
  ["quit", "exit"]

def firstWord? (raw : Text) : Option String :=
  raw.trim.words.head?.map fun word => String.ofList word.lower

def precisionAction? (argument : Text) : Option Action :=
  if argument = ['+'] then some .increasePrecision
  else if argument = ['-'] then some .decreasePrecision
  else
    match Setting.readInteger argument with
    | .ok n => some (.setPrecision (.integer n))
    | .error _ => none

namespace Desk

def act (settings : Settings) (source : Source) (d : Desk) (action : Action) : Desk :=
  { d with session := (d.session.perform settings source action).2 }

def obey (settings : Settings) (source : Source) (d : Desk) (word : String)
    (arguments : List Text) (rest : Text) : Desk :=
  match word with
  | "verbose" => { d with verbose := !d.verbose }
  | "precision" => ((arguments.head?.bind precisionAction?).map (d.act settings source)).getD d
  | "reset" => { d.act settings source .resetSession with verbose := false }
  | "prev" => d.act settings source (.previousEntry (some rest))
  | "next" => d.act settings source (.nextEntry (some rest))
  | _ => d

def enter (settings : Settings) (source : Source) (d : Desk) (expression : Text) : Desk :=
  let evaluation := .evaluate expression d.verbose .absent none
  let done := d.act settings source evaluation
  match (d.session.perform settings source evaluation).1 with
  | .ok _ => (done.act settings source .resetCursor).act settings source (.addEntry expression)
  | .error _ => done

def step (settings : Settings) (source : Source) (d : Desk) (raw : Text) : Desk :=
  match raw.trim.words with
  | [] => d
  | word :: arguments =>
    if String.ofList word.lower ∈ commandWords then
      d.obey settings source (String.ofList word.lower) arguments
        (Text.trim (raw.trim.drop word.length))
    else d.enter settings source raw.trim.closeParentheses

end Desk

def typed : List Input → List Text
  | .line raw :: rest => if firstWord? raw ∈ leavingWords.map some then [] else raw :: typed rest
  | _ => []

theorem ofName?_eq_none {name : Text} (h : String.ofList name ∉ commandWords)
    (arguments : List Text) (rest : Text) : Command.ofName? name arguments rest = none := by
  unfold Command.ofName?
  split <;> simp_all [commandWords]

theorem Entry.ofLine_of_nil {raw : Text} (h : raw.trim.words = []) : Entry.ofLine raw = .blank := by
  simp [ofLine, h]

theorem Entry.ofLine_of_notMem {raw word : Text} {arguments : List Text}
    (h : raw.trim.words = word :: arguments) (hword : String.ofList word.lower ∉ commandWords) :
    Entry.ofLine raw = .expression raw.trim := by
  simp [ofLine, h, ofName?_eq_none hword]

namespace Desk

variable {settings : Settings} {source : Source} (d : Desk) {expression : Text}

theorem enter_ok {reduced : Double × Memory}
    (h : d.session.evaluate settings source expression = .ok reduced) :
    d.enter settings source expression =
      ⟨{ d.session.adopt reduced.2 with
          history := d.session.history.resetCursor.add expression }, d.verbose⟩ := by
  simp only [enter, act, Session.perform_evaluate, h]
  rfl

theorem enter_error {stop : Stop}
    (h : d.session.evaluate settings source expression = .error stop) :
    d.enter settings source expression = ⟨d.session.adopt stop.memory, d.verbose⟩ := by
  simp only [enter, act, Session.perform_evaluate, h]
  rfl

end Desk

def Console.desk (c : Console) : Desk :=
  ⟨c.session, c.verbose⟩

namespace Console

variable {settings : Settings} (source : Source) (c : Console)

theorem desk_expression (text : Text) : (c.expression settings source text).console.desk =
    c.desk.enter settings source text.closeParentheses := by
  have hdesk : (c.expression settings source text).console.desk =
      ⟨(evaluateLine settings source c.format c.verbose c.session text).session, c.verbose⟩ := by
    simp only [expression]
    split <;> rfl
  rw [hdesk]
  cases houtcome : c.session.evaluate settings source text.closeParentheses with
  | ok reduced =>
    rw [c.desk.enter_ok houtcome, (evaluateLine_ok houtcome c.format c.verbose).2]
    rfl
  | error stop =>
    rw [c.desk.enter_error houtcome, (evaluateLine_error houtcome c.format c.verbose).2.1]
    rfl

theorem desk_reset (hreset : settings.resetError? = none) :
    (c.reset settings source).console.desk =
      { c.desk.act settings source .resetSession with verbose := false } := by
  have hresult := c.session.result_reset settings source
  rw [hreset] at hresult
  simp only [reset, Desk.act, desk, Session.perform]
  generalize c.session.reset settings source = done at hresult
  obtain ⟨result, session, records⟩ := done
  dsimp only at hresult
  subst hresult
  rfl

theorem desk_precision (argument : Option Text) :
    (c.command settings source (.precision argument)).console.desk =
      ((argument.bind precisionAction?).map (c.desk.act settings source)).getD c.desk := by
  cases argument with
  | none => rfl
  | some argument =>
    simp only [command, Option.bind_some, precisionAction?]
    split
    · rfl
    split
    · rfl
    cases Setting.readInteger argument <;> rfl

theorem desk_showEntry (moved : Text × History) :
    (c.showEntry moved).console.desk =
      ⟨{ c.session with history := moved.2 }, c.verbose⟩ := by
  unfold showEntry
  dsimp only
  split <;> rfl

theorem desk_submit (hreset : settings.resetError? = none) (raw : Text) :
    (c.submit settings source raw).console.desk = c.desk.step settings source raw := by
  rw [Desk.step]
  cases hwords : raw.trim.words with
  | nil =>
    rw [submit, Entry.ofLine_of_nil hwords]
    rfl
  | cons word arguments =>
    dsimp only
    by_cases hword : String.ofList word.lower ∈ commandWords
    · rw [if_pos hword, submit, Entry.ofLine, hwords]
      dsimp only
      rw [Command.ofName?]
      generalize String.ofList word.lower = name at hword
      simp only [commandWords, List.mem_cons, List.not_mem_nil, or_false] at hword
      rcases hword with rfl | rfl | rfl | rfl | rfl | rfl | rfl | rfl | rfl | rfl
      · rfl
      · rfl
      · rfl
      · rfl
      · exact desk_precision source c arguments.head?
      · exact desk_reset source c hreset
      · rfl
      · exact desk_showEntry c _
      · exact desk_showEntry c _
      · rfl
    · rw [if_neg hword, submit, Entry.ofLine_of_notMem hwords hword]
      exact desk_expression source c raw.trim

theorem desk_answer (hreset : settings.resetError? = none) (raw : Text) :
    (c.answer settings source (some (.line raw))).console.desk = c.desk.step settings source raw :=
  desk_submit source { c with hook := none } hreset raw

end Console

namespace Desk

variable {settings : Settings} {source : Source} {d : Desk}

theorem step_of_leaving {raw : Text} (h : firstWord? raw ∈ leavingWords.map some) :
    d.step settings source raw = d := by
  rw [step]
  cases hwords : raw.trim.words with
  | nil => rfl
  | cons word arguments =>
    simp only [firstWord?, hwords, List.head?_cons, Option.map_some] at h
    dsimp only
    generalize String.ofList word.lower = name at h
    simp only [leavingWords, List.map_cons, List.map_nil, List.mem_cons, Option.some.injEq,
      List.not_mem_nil, or_false] at h
    rcases h with rfl | rfl <;> rfl

theorem step_blank {raw : Text} (h : ∀ c ∈ raw, isBlank c = true) :
    d.step settings source raw = d := by
  rw [step, Text.trim_eq_nil h]
  rfl

/-- What entering an expression changes: neither the precision nor the verbose flag. If the
expression evaluates, its value is the answer, it is the last entry of the history, where it does
not stand twice in a row, and neither cursor nor draft is left. If it fails, the answer is the
result of the last reduction that had been completed, and the history stays. -/
structure Enters (settings : Settings) (source : Source) (d : Desk) (expression : Text)
    (after : Desk) : Prop where
  precision : after.session.precision = d.session.precision
  verbose : after.verbose = d.verbose
  ends :
    (∃ x memory, d.session.evaluate settings source expression = .ok (x, memory) ∧
      after.session.answer.value = x ∧
      (after.session.history.entries =
        if d.session.history.entries.getLast? = some expression then d.session.history.entries
        else d.session.history.entries.erase expression ++ [expression]) ∧
      after.session.history.cursor = none ∧ after.session.history.draft = none ∧
      after.session.history.sentinel = d.session.history.sentinel) ∨
    ∃ failure memory rs, d.session.evaluate settings source expression =
        .error ⟨failure, memory⟩ ∧
      StopsAfter (d.session.rules settings source none none) (d.session.memory false) rs
        ⟨failure, memory⟩ ∧
      after.session.answer.value = lastResult d.session.answer.value rs ∧
      after.session.history = d.session.history

theorem enters_enter (settings : Settings) (source : Source) (d : Desk) (expression : Text) :
    d.Enters settings source expression (d.enter settings source expression) := by
  have houtcome : d.session.evaluate settings source expression =
      PolishCalc.evaluateLine (d.session.rules settings source none none)
        (d.session.memory false) expression :=
    d.session.outcome_eq settings source expression false none none
  cases hline : d.session.evaluate settings source expression with
  | ok reduced =>
    obtain ⟨x, memory⟩ := reduced
    rw [d.enter_ok hline]
    exact ⟨rfl, rfl, .inl ⟨x, memory, hline, answer_of_evaluateLine_ok (houtcome ▸ hline),
      d.session.history.add_ends expression⟩⟩
  | error stop =>
    obtain ⟨failure, memory⟩ := stop
    obtain ⟨rs, hrs⟩ := stopsAfter_of_evaluateLine (houtcome ▸ hline)
    rw [d.enter_error hline]
    exact ⟨rfl, rfl, .inr ⟨failure, memory, rs, hline, hrs, hrs.memory_eq.1, rfl⟩⟩

end Desk

theorem isAlpha_of_commandWord {name : Text} (h : String.ofList name ∈ commandWords) :
    1 < name.length ∧ ∀ c ∈ name, c.isAlpha = true := by
  have hwords : ∀ word ∈ commandWords,
      1 < word.toList.length ∧ word.toList.all Char.isAlpha = true := by
    decide
  simpa using hwords _ h

theorem ending?_line {settings : Settings} (hreset : settings.resetError? = none) (raw : Text) :
    (Input.line raw).ending? settings = none ↔ firstWord? raw ∉ leavingWords.map some := by
  rw [Input.ending?, firstWord?]
  cases hwords : raw.trim.words with
  | nil => simp [Entry.ofLine_of_nil hwords, Entry.ending?, leavingWords]
  | cons word arguments =>
    by_cases hword : String.ofList word.lower ∈ commandWords
    · rw [Entry.ofLine, hwords]
      dsimp only
      rw [Command.ofName?, List.head?_cons, Option.map_some]
      generalize String.ofList word.lower = name at hword
      simp only [commandWords, List.mem_cons, List.not_mem_nil, or_false] at hword
      rcases hword with rfl | rfl | rfl | rfl | rfl | rfl | rfl | rfl | rfl | rfl <;>
        simp [Entry.ending?, leavingWords, hreset]
    · have hleaving : String.ofList word.lower ∉ leavingWords := fun h =>
        hword ((by decide : leavingWords ⊆ commandWords) h)
      rw [Entry.ofLine_of_notMem hwords hword]
      simpa [Entry.ending?] using hleaving

theorem exists_ending_of_leaving {settings : Settings} (hreset : settings.resetError? = none)
    {raw : Text} (h : firstWord? raw ∈ leavingWords.map some) :
    ∃ ending, (Input.line raw).ending? settings = some ending :=
  Option.ne_none_iff_exists'.1 fun hnone => (ending?_line hreset raw).1 hnone h

namespace Console

variable {settings : Settings} (hreset : settings.resetError? = none) (source : Source)
  (c : Console)

include hreset

theorem desk_after (lines : List Text) :
    (c.after settings source (lines.map Input.line)).desk =
      lines.foldl (Desk.step settings source) c.desk := by
  induction lines generalizing c with
  | nil => rfl
  | cons raw lines ih =>
    rw [List.foldl_cons, ← desk_answer source c hreset]
    exact ih _

theorem run_session (inputs : List Input) :
    (c.run settings source inputs).session =
      ((typed inputs).foldl (Desk.step settings source) c.desk).session := by
  induction inputs generalizing c with
  | nil =>
    rw [run_nil]
    rfl
  | cons input rest ih =>
    cases input with
    | interrupt =>
      rw [run_cons_some rfl]
      rfl
    | line raw =>
      have hstep := desk_answer source c hreset raw
      by_cases hleaves : firstWord? raw ∈ leavingWords.map some
      · obtain ⟨ending, hending⟩ := exists_ending_of_leaving hreset hleaves
        rw [run_cons_some hending, typed, if_pos hleaves]
        rw [Desk.step_of_leaving hleaves] at hstep
        exact congrArg Desk.session hstep
      · rw [run_cons_none ((ending?_line hreset raw).2 hleaves), typed, if_neg hleaves,
          List.foldl_cons, ← hstep]
        exact ih _

end Console

theorem firstWord?_of_operator {raw : Text} {op : Operator}
    (h : (Token.ofLine raw.pointForComma).head? = some (.operator op)) :
    firstWord? raw ∉ commandWords.map some := by
  obtain ⟨tail, later, hwords, htail⟩ := Text.words_trim_of_operator h
  rw [firstWord?, hwords]
  intro hword
  obtain ⟨hlength, hletters⟩ := isAlpha_of_commandWord (by simpa using hword)
  cases tail with
  | nil => simp [Text.lower] at hlength
  | cons d tail =>
    have hletter : d.toLower.isAlpha = true := hletters _ (by simp [Text.lower])
    have hd : d = '(' ∨ d = ')' := by simpa [Text.isParenthesis] using htail d rfl
    rcases hd with rfl | rfl <;> exact absurd hletter (by decide)

theorem Entry.ofLine_of_operator {raw : Text} {op : Operator}
    (h : (Token.ofLine raw.pointForComma).head? = some (.operator op)) :
    Entry.ofLine raw = .expression raw.trim := by
  obtain ⟨tail, later, hwords, -⟩ := Text.words_trim_of_operator h
  have hword := firstWord?_of_operator h
  rw [firstWord?, hwords] at hword
  exact Entry.ofLine_of_notMem hwords (by simpa using hword)

theorem Desk.step_of_notMem {settings : Settings} {source : Source} (d : Desk) {raw : Text}
    (hblank : ¬ ∀ c ∈ raw, isBlank c = true) (hword : firstWord? raw ∉ commandWords.map some) :
    d.step settings source raw = d.enter settings source raw.trim.closeParentheses := by
  rw [step]
  cases hwords : raw.trim.words with
  | nil =>
    refine absurd (fun c hc => ?_) hblank
    by_contra hsolid
    have hmem : c ∈ raw.trim := Text.mem_trim (Bool.eq_false_of_not_eq_true hsolid) hc
    exact hsolid (Text.blank_of_words_eq_nil hwords c hmem)
  | cons word arguments =>
    rw [firstWord?, hwords] at hword
    exact if_neg (by simpa using hword)

/-- A conversation does to the session and the verbose flag what its lines do one after the other,
up to the first that leaves the console. A blank line does nothing, and one that does not start with
the word of a command is entered as an expression. A line that starts with an operator never starts
with the word of a command. -/
theorem conversation (settings : Settings) (hreset : settings.resetError? = none)
    (source : Source) (c : Console) (inputs : List Input) :
    let desk := (typed inputs).foldl (Desk.step settings source) c.desk
    (c.run settings source inputs).session = desk.session ∧
    (c.after settings source ((typed inputs).map .line)).desk = desk ∧
    ∀ (d : Desk) (raw : Text),
      ((∀ ch ∈ raw, isBlank ch = true) → d.step settings source raw = d) ∧
      ((¬ ∀ ch ∈ raw, isBlank ch = true) → firstWord? raw ∉ commandWords.map some →
        d.Enters settings source raw.trim.closeParentheses (d.step settings source raw)) ∧
      ∀ op, (Token.ofLine raw.pointForComma).head? = some (.operator op) →
        firstWord? raw ∉ commandWords.map some ∧ Entry.ofLine raw = .expression raw.trim := by
  refine ⟨c.run_session hreset source inputs, c.desk_after hreset source _, ?_⟩
  refine fun d raw => ⟨Desk.step_blank, fun hblank hword => ?_, fun op hop => ?_⟩
  · rw [Desk.step_of_notMem d hblank hword]
    exact Desk.enters_enter settings source d _
  · exact ⟨firstWord?_of_operator hop, Entry.ofLine_of_operator hop⟩

theorem conversation_recall :
    let c : Console := ⟨.fresh .usual, false, .human, true, none⟩
    let inputs := ["  ", "+ 1 (* 2 3", "VERBOSE", "prev / 1", "/ (- 9 1) x", "quit", "+ 5 5"].map
      fun raw => Input.line raw.toList
    let after := (c.run .usual .lowest inputs).session
    let d := Desk.mk (.fresh .usual) false
    Settings.usual.resetError? = none ∧
      after.history.entries = ["+ (- 1 1) 0".toList, "+ 1 (* 2 3)".toList] ∧
      after.history.browsing = some ⟨1, "/ 1".toList⟩ ∧ after.answer.value = .ofNat 8 ∧
      (c.after .usual .lowest ((typed inputs).map .line)).verbose = true ∧
      d.step .usual .lowest "  ".toList = d ∧
      d.Enters .usual .lowest "r(1 6)".toList (d.step .usual .lowest "r(1 6".toList) ∧
      Entry.ofLine "r(1 6".toList = .expression "r(1 6".toList := by
  intro c inputs after d
  have hreset : Settings.usual.resetError? = none := by decide +kernel
  obtain ⟨hsession, hdesk, hsteps⟩ := conversation .usual hreset .lowest c inputs
  have hafter : after = ((typed inputs).foldl (Desk.step .usual .lowest) c.desk).session := hsession
  obtain ⟨hblank, -, -⟩ := hsteps d "  ".toList
  obtain ⟨-, henters, hoperator⟩ := hsteps d "r(1 6".toList
  have hletter : ¬ ∀ ch ∈ "r(1 6".toList, isBlank ch = true := fun h =>
    absurd (h 'r' (by decide)) (by decide)
  obtain ⟨hword, hentry⟩ := hoperator .random (by decide)
  have hnothing := hblank (List.all_eq_true.1 rfl)
  refine ⟨hreset, ?_, ?_, ?_, ?_, hnothing, henters hletter hword, hentry⟩
  · rw [hafter]
    decide +kernel
  · rw [hafter]
    decide +kernel
  · rw [hafter]
    decide +kernel
  · exact (congrArg Desk.verbose hdesk).trans (by decide +kernel)

end CommandLine

end PolishCalc
