import PolishCalc.CommandLine.Program
import PolishCalc.Proofs.Recording
import PolishCalc.Proofs.Reset

namespace PolishCalc

namespace Session

theorem result_reset (settings : Settings) (source : Source) (s : Session) :
    (s.reset settings source).1 = match settings.resetError? with
      | none => .ok ()
      | some error => .error (.reported error) := by
  have hresult := result_resetExpression (s.cleared.rules settings source none none) rfl rfl
    (s.cleared.memory false)
  have houtcome := outcome_eq settings source s.cleared (resetExpression settings) false none none
  have hreset : (s.reset settings source).1 =
      (Outcome.result (s.cleared.resetAnswer settings source)).map fun _ => () := by
    simp only [reset, cleared]
    split <;> rename_i h <;> rw [h] <;> rfl
  have hanswer : s.cleared.resetAnswer settings source =
      evaluateLine (s.cleared.rules settings source none none) (s.cleared.memory false)
        (resetExpression settings) := houtcome
  rw [hreset, hanswer]
  cases herror : settings.resetError? with
  | none =>
    rw [herror] at hresult
    obtain ⟨reduced, hline⟩ := hresult
    rw [hline]
    rfl
  | some error =>
    rw [herror] at hresult
    obtain ⟨after, hline⟩ := hresult
    rw [hline]
    rfl

theorem reports_of_evaluate {settings : Settings} {source : Source} {s : Session} {line : Text}
    {failure : Failure} (hsource : source.Reliable) (hanswer : s.answer.value.isInfinite = false)
    (h : Outcome.result (s.evaluate settings source line) = .error failure) :
    ∃ error, failure = .reported error := by
  have hrules : Preserves (s.rules settings source none none)
      (fun memory => memory.answer.isInfinite = false) (fun x => x.isInfinite = false)
      (fun stop => stop.failure.IsReported settings.maxExpressionDepth) :=
    preserves_notInfinite hsource
  have hmemory : (s.memory false).answer.isInfinite = false := hanswer
  have hends := hrules.evaluateLine hmemory line
  rw [← outcome_eq, show s.outcome settings source line false (.ofPrecision none) none =
    s.evaluate settings source line from rfl] at hends
  obtain ⟨memory, houtcome⟩ := Outcome.result_eq_error h
  rw [houtcome] at hends
  exact hends.of_writable settings.limits_writable.2

end Session

namespace CommandLine

def Entry.ending? (settings : Settings) : Entry → Option Ending
  | .command .quit => some (.exit 0)
  | .command .reset => settings.resetError?.map fun error => .failure (.reported error)
  | _ => none

def Input.ending? (settings : Settings) : Input → Option Ending
  | .line raw => (Entry.ofLine raw).ending? settings
  | .interrupt => some (.exit 0)

theorem Entry.eq_quit_of_ending? {settings : Settings} (hreset : settings.resetError? = none)
    {entry : Entry} {ending : Ending} (h : entry.ending? settings = some ending) :
    entry = .command .quit := by
  rw [Entry.ending?.eq_def] at h
  split at h
  · rfl
  · simp [hreset] at h
  · cases h

theorem Input.ending?_eq_exit {settings : Settings} (hreset : settings.resetError? = none)
    {input : Input} {ending : Ending} (h : input.ending? settings = some ending) :
    ending = .exit 0 := by
  cases input with
  | interrupt => exact (Option.some.inj h).symm
  | line raw =>
    rw [ending?, Entry.eq_quit_of_ending? hreset h] at h
    exact (Option.some.inj h).symm

section

variable {settings : Settings} {source : Source} {s : Session} {raw : Text}

theorem evaluateLine_ok {x : Double} {memory : Memory}
    (h : s.evaluate settings source raw.closeParentheses = .ok (x, memory)) (format : Format)
    (verbose : Bool) :
    let evaluated := evaluateLine settings source format verbose s raw
    evaluated.failure = none ∧ evaluated.session =
      { s.adopt memory with history := s.history.add raw.closeParentheses } := by
  obtain ⟨memory', houtcome, rfl⟩ := Session.exists_outcome_ok h verbose
  simp only [evaluateLine, houtcome]
  exact ⟨rfl, rfl⟩

theorem evaluateLine_error {stop : Stop}
    (h : s.evaluate settings source raw.closeParentheses = .error stop) (format : Format)
    (verbose : Bool) :
    let evaluated := evaluateLine settings source format verbose s raw
    evaluated.failure = some stop.failure ∧ evaluated.session = s.adopt stop.memory ∧
      ∀ error, stop.failure = .reported error → evaluated.printed = errorText format error := by
  obtain ⟨failure, after⟩ := stop
  obtain ⟨memory, houtcome, rfl⟩ := Session.exists_outcome_error h verbose
  simp only [evaluateLine, houtcome]
  cases failure with
  | reported error => exact ⟨rfl, rfl, fun _ heq => by cases heq; rfl⟩
  | fault fault => exact ⟨rfl, rfl, fun _ heq => by cases heq⟩

end

def failureText (format : Format) : Failure → Text
  | .reported error => errorText format error
  | .fault _ => line "An error occurred. Please check your input and try again.".toList

namespace Console

variable {settings : Settings} {source : Source} {c : Console}

theorem reset_ending (settings : Settings) (source : Source) (c : Console) :
    (c.reset settings source).ending =
      settings.resetError?.map fun error => .failure (.reported error) := by
  have hresult := c.session.result_reset settings source
  rw [reset]
  generalize c.session.reset settings source = done at hresult
  obtain ⟨result, session, records⟩ := done
  dsimp only at hresult
  subst hresult
  cases settings.resetError? <;> rfl

theorem reset_format (settings : Settings) (source : Source) (c : Console) :
    (c.reset settings source).console.format = c.format := by
  rw [reset]
  generalize c.session.reset settings source = done
  obtain ⟨result, session, records⟩ := done
  cases result <;> rfl

theorem showEntry_keeps (c : Console) (moved : Text × History) :
    (c.showEntry moved).ending = none ∧ (c.showEntry moved).console.format = c.format := by
  unfold showEntry
  dsimp only
  split <;> exact ⟨rfl, rfl⟩

theorem command_keeps (settings : Settings) (source : Source) (c : Console) (name : Command) :
    (c.command settings source name).ending = (Entry.command name).ending? settings ∧
      (c.command settings source name).console.format = c.format := by
  cases name with
  | reset => exact ⟨c.reset_ending settings source, c.reset_format settings source⟩
  | precision argument =>
    cases argument with
    | none => exact ⟨rfl, rfl⟩
    | some argument =>
      simp only [command]
      split
      · exact ⟨rfl, rfl⟩
      split
      · exact ⟨rfl, rfl⟩
      split <;> exact ⟨rfl, rfl⟩
  | previous draft => exact c.showEntry_keeps _
  | next draft => exact c.showEntry_keeps _
  | _ => exact ⟨rfl, rfl⟩

theorem expression_keeps (settings : Settings) (source : Source) (c : Console) (text : Text) :
    (c.expression settings source text).ending = none ∧
      (c.expression settings source text).console.format = c.format := by
  unfold expression
  dsimp only
  split <;> exact ⟨rfl, rfl⟩

theorem answer_keeps (settings : Settings) (source : Source) (c : Console) (input : Input) :
    (c.answer settings source (some input)).ending = input.ending? settings ∧
      (c.answer settings source (some input)).console.format = c.format := by
  cases input with
  | interrupt => exact ⟨rfl, rfl⟩
  | line raw =>
    rw [answer, submit, Input.ending?]
    cases Entry.ofLine raw with
    | blank => exact ⟨rfl, rfl⟩
    | command name => exact command_keeps settings source { c with hook := none } name
    | expression text => exact expression_keeps settings source { c with hook := none } text

theorem run_nil (settings : Settings) (source : Source) (c : Console) :
    c.run settings source [] = ⟨.exit 0, prompt ++ c.leave.printed, [], [c.hook], c.session⟩ := by
  rw [run]
  · rfl
  · rfl

theorem run_cons_some {input : Input} {ending : Ending}
    (h : input.ending? settings = some ending) (rest : List Input) :
    let turn := c.answer settings source (some input)
    c.run settings source (input :: rest) =
      ⟨ending, prompt ++ turn.printed, turn.records, [c.hook], turn.console.session⟩ := by
  have hanswer := (c.answer_keeps settings source input).1.trans h
  rw [run.eq_def]
  simp only [List.head?_cons, hanswer]

theorem run_cons_none {input : Input} (h : input.ending? settings = none)
    (rest : List Input) :
    let turn := c.answer settings source (some input)
    let next := turn.console.run settings source rest
    c.run settings source (input :: rest) =
      { next with
        printed := prompt ++ turn.printed ++ next.printed
        records := turn.records ++ next.records
        prompts := c.hook :: next.prompts } := by
  have hanswer := (c.answer_keeps settings source input).1.trans h
  simp only [run, List.head?_cons, hanswer]

theorem run_ending (settings : Settings) (source : Source) (c : Console) (inputs : List Input) :
    let run := c.run settings source inputs
    run.ending = (inputs.findSome? (Input.ending? settings)).getD (.exit 0) ∧
      run.prompts.length =
        (inputs.takeWhile fun input => input.ending? settings = none).length + 1 := by
  induction inputs generalizing c with
  | nil =>
    rw [run_nil]
    exact ⟨rfl, rfl⟩
  | cons input rest ih =>
    cases h : input.ending? settings with
    | some ending =>
      rw [run_cons_some h rest]
      simp [h]
    | none =>
      rw [run_cons_none h rest]
      obtain ⟨hending, hprompts⟩ := ih (c.answer settings source (some input)).console
      simp [hending, hprompts, h]

def after (settings : Settings) (source : Source) (c : Console) (inputs : List Input) : Console :=
  inputs.foldl (fun c input => (c.answer settings source (some input)).console) c

def shown (settings : Settings) (source : Source) (c : Console) : List Input → Text
  | [] => []
  | input :: rest =>
    let turn := c.answer settings source (some input)
    prompt ++ turn.printed ++ turn.console.shown settings source rest

theorem after_format (settings : Settings) (source : Source) (c : Console) (inputs : List Input) :
    (c.after settings source inputs).format = c.format := by
  induction inputs generalizing c with
  | nil => rfl
  | cons input rest ih => exact (ih _).trans (c.answer_keeps settings source input).2

theorem run_append (source : Source) (c : Console) {front : List Input}
    (hfront : ∀ input ∈ front, input.ending? settings = none) (rest : List Input) :
    (c.run settings source (front ++ rest)).printed =
      c.shown settings source front ++
        ((c.after settings source front).run settings source rest).printed := by
  induction front generalizing c with
  | nil => rfl
  | cons input front ih =>
    obtain ⟨hinput, hrest⟩ := List.forall_mem_cons.1 hfront
    rw [List.cons_append, run_cons_none hinput]
    simp only [ih _ hrest, shown, after, List.foldl_cons, List.append_assoc]

theorem exists_run_printed (settings : Settings) (source : Source) (c : Console)
    (inputs : List Input) : ∃ text, (c.run settings source inputs).printed = prompt ++ text := by
  cases inputs with
  | nil =>
    rw [run_nil]
    exact ⟨_, rfl⟩
  | cons input rest =>
    cases h : input.ending? settings with
    | some ending =>
      rw [run_cons_some h]
      exact ⟨_, rfl⟩
    | none =>
      rw [run_cons_none h]
      exact ⟨_, List.append_assoc _ _ _⟩

theorem expression_printed {text : Text} {failure : Failure}
    (h : Outcome.result (c.session.evaluate settings source text.closeParentheses) =
      .error failure) :
    (c.expression settings source text).printed = failureText c.format failure := by
  obtain ⟨memory, houtcome⟩ := Outcome.result_eq_error h
  obtain ⟨hfailure, -, hprinted⟩ := evaluateLine_error houtcome c.format c.verbose
  rw [expression, hfailure]
  cases failure with
  | reported error => exact hprinted error rfl
  | fault fault => rfl

theorem run_reports {front back : List Input} {raw text : Text}
    (hfront : ∀ input ∈ front, input.ending? settings = none)
    (hentry : Entry.ofLine raw = .expression text) {failure : Failure}
    (h : Outcome.result ((c.after settings source front).session.evaluate settings source
      text.closeParentheses) = .error failure) :
    ∃ rest, (c.run settings source (front ++ .line raw :: back)).printed =
      c.shown settings source front ++ prompt ++ failureText c.format failure ++ prompt ++
        rest := by
  have hending : (Input.line raw).ending? settings = none := by
    rw [Input.ending?, hentry]
    rfl
  -- The hook is cleared before the line is looked at.
  let reached : Console := { c.after settings source front with hook := none }
  have hanswer : (c.after settings source front).answer settings source (some (.line raw)) =
      reached.expression settings source text := by
    rw [answer, submit, hentry]
  have hformat : reached.format = c.format := c.after_format settings source front
  obtain ⟨rest, hrest⟩ := exists_run_printed settings source
    (reached.expression settings source text).console back
  refine ⟨rest, ?_⟩
  rw [run_append source c hfront, run_cons_none hending]
  simp only [hanswer, hrest, expression_printed (c := reached) h, hformat, List.append_assoc]

end Console

theorem evaluateOnce_ending (setup : Setup) (source : Source) (a : Arguments) (s : Session)
    (expression : Text) :
    let run := evaluateOnce setup source a s expression
    let result := Outcome.result (s.evaluate setup.settings source
      (withoutPrompt expression).closeParentheses)
    (∃ x, result = .ok x ∧ run.ending = .exit 0) ∨
      (∃ error, result = .error (.reported error) ∧ run.ending = .exit 1 ∧
        run.printed = errorText a.format error) ∨
      ∃ fault, result = .error (.fault fault) ∧ run.ending = .failure (.fault fault) := by
  simp only [evaluateOnce]
  cases houtcome : s.evaluate setup.settings source
    (withoutPrompt expression).closeParentheses with
  | ok reduced =>
    obtain ⟨hfailure, -⟩ := evaluateLine_ok houtcome a.format a.verbose
    rw [hfailure]
    exact .inl ⟨reduced.1, rfl, rfl⟩
  | error stop =>
    obtain ⟨failure, memory⟩ := stop
    obtain ⟨hfailure, -, hprinted⟩ := evaluateLine_error houtcome a.format a.verbose
    rw [hfailure]
    cases failure with
    | reported error => exact .inr (.inl ⟨error, rfl, rfl, hprinted error rfl⟩)
    | fault fault => exact .inr (.inr ⟨fault, rfl, rfl⟩)

theorem answer_of_openSession {settings : Settings} {precision : Given Int} {s : Session}
    (h : openSession settings precision = .ok s) : s.answer.value = settings.ansDefault := by
  cases precision with
  | absent =>
    obtain rfl := Except.ok.inj h
    rfl
  | bare => cases h
  | value n =>
    obtain rfl := Except.ok.inj h
    rfl

/-- The arguments ask for an evaluation or for the console, in this session and with this source. -/
structure Setup.Serves (setup : Setup) (argv : List Text) (a : Arguments) (s : Session)
    (source : Source) : Prop where
  arguments : Arguments.read setup.settings argv = .ok a
  logging : ∃ logging, a.logging = .ok logging
  version : a.version = false
  healthCheck : a.healthCheck = false
  session : openSession setup.settings a.precision = .ok s
  source : chooseSource setup a.seed = .ok source

namespace Setup.Serves

variable {setup : Setup} {argv : List Text} {a : Arguments} {s : Session} {source : Source}

theorem start_eq (h : setup.Serves argv a s source) :
    ∃ logging, start setup argv = (launch setup a, logging) := by
  obtain ⟨logging, hlogging⟩ := h.logging
  exact ⟨logging, by rw [start, h.arguments]; simp only [hlogging]⟩

theorem launch_eq (h : setup.Serves argv a s source) :
    launch setup a = match a.expression with
      | .absent => .console ⟨s, a.verbose, a.format, setup.fillsPrompts, none⟩ source
      | .bare => .finished (broken s (.valueless .asExpression))
      | .value expression => .finished (evaluateOnce setup source a s expression) := by
  rw [launch, h.version, h.healthCheck, h.session, h.source]
  rfl

theorem runProgram_value (h : setup.Serves argv a s source) {expression : Text}
    (ha : a.expression = .value expression) (inputs : List Input) :
    (runProgram setup argv inputs).1 = evaluateOnce setup source a s expression := by
  obtain ⟨logging, hstart⟩ := h.start_eq
  rw [runProgram, hstart, h.launch_eq, ha]

theorem runProgram_absent (h : setup.Serves argv a s source) (ha : a.expression = .absent)
    (inputs : List Input) :
    let c : Console := ⟨s, a.verbose, a.format, setup.fillsPrompts, none⟩
    let run := c.run setup.settings source inputs
    (runProgram setup argv inputs).1 = { run with printed := greeting ++ run.printed } := by
  obtain ⟨logging, hstart⟩ := h.start_eq
  rw [runProgram, hstart, h.launch_eq, ha]

end Setup.Serves

/-- How the program ends, if the call stack is large enough for the depth limit of its settings;
that nesting within the limit may exhaust it is an accepted limitation. An expression from the
arguments ends it with 0 if it evaluates and with 1 if it is refused, which is printed; it always
does one of them if the default answer is not infinite. The console ends at an interrupt, a quit or
the end of the inputs, with 0, or at a reset that fails; all other failures are printed. -/
theorem runProgram_ends (setup : Setup) (argv : List Text) (inputs : List Input) (a : Arguments)
    (s : Session) (source : Source) (h : setup.Serves argv a s source) (hsource : source.Reliable) :
    let run := (runProgram setup argv inputs).1
    (∀ expression, a.expression = .value expression →
      let result := Outcome.result (s.evaluate setup.settings source
        (withoutPrompt expression).closeParentheses)
      (run.ending = .exit 0 ↔ ∃ x, result = .ok x) ∧
      (run.ending = .exit 1 ↔ ∃ error, result = .error (.reported error)) ∧
      (∀ error, result = .error (.reported error) → run.printed = errorText a.format error) ∧
      (setup.settings.ansDefault.isInfinite = false →
        run.ending = .exit 0 ∨ run.ending = .exit 1)) ∧
    (a.expression = .absent →
      run.ending = (inputs.findSome? (Input.ending? setup.settings)).getD (.exit 0) ∧
      run.prompts.length =
        (inputs.takeWhile fun input => input.ending? setup.settings = none).length + 1 ∧
      (setup.settings.resetError? = none → run.ending = .exit 0) ∧
      ∀ front back raw text failure, inputs = front ++ .line raw :: back →
        (∀ input ∈ front, input.ending? setup.settings = none) →
        Entry.ofLine raw = .expression text →
        let c : Console := ⟨s, a.verbose, a.format, setup.fillsPrompts, none⟩
        let reached := c.after setup.settings source front
        Outcome.result (reached.session.evaluate setup.settings source text.closeParentheses) =
          .error failure →
        ∃ rest, run.printed = greeting ++ (c.shown setup.settings source front ++ prompt ++
          failureText a.format failure ++ prompt ++ rest)) := by
  constructor
  · intro expression ha
    dsimp only
    rw [h.runProgram_value ha]
    rcases evaluateOnce_ending setup source a s expression with
      ⟨x, hresult, hending⟩ | ⟨error, hresult, hending, hprinted⟩ | ⟨fault, hresult, hending⟩
    · simp [hresult, hending]
    · simp [hresult, hending, hprinted]
    · have hinfinite : setup.settings.ansDefault.isInfinite = true := by
        by_contra hfinite
        obtain ⟨error, herror⟩ := Session.reports_of_evaluate hsource
          (answer_of_openSession h.session ▸ Bool.eq_false_of_not_eq_true hfinite) hresult
        cases herror
      simp [hresult, hending, hinfinite]
  · intro ha
    dsimp only
    rw [h.runProgram_absent ha]
    obtain ⟨hending, hprompts⟩ := Console.run_ending setup.settings source
      ⟨s, a.verbose, a.format, setup.fillsPrompts, none⟩ inputs
    refine ⟨hending, hprompts, ?_, ?_⟩
    · intro hreset
      refine hending.trans ?_
      cases hfirst : inputs.findSome? (Input.ending? setup.settings) with
      | none => rfl
      | some ending =>
        obtain ⟨input, -, hinput⟩ := List.exists_of_findSome?_eq_some hfirst
        exact Input.ending?_eq_exit hreset hinput
    · rintro front back raw text failure rfl hfront hentry hfailure
      exact (Console.run_reports hfront hentry hfailure).imp fun rest hrest =>
        congrArg (greeting ++ ·) hrest

theorem runProgram_ends_usual :
    let setup : Setup := ⟨.usual, .lowest, fun _ => .lowest, true, []⟩
    let once := (runProgram setup ["--eval".toList, "+ x 1".toList] []).1
    let console := (runProgram setup []
      [.line "/ x 1".toList, .line "reset".toList, .line "quit".toList, .line "+ 1 2".toList]).1
    Source.lowest.Reliable ∧ once.ending = .exit 1 ∧
      console.ending = .exit 0 ∧ console.prompts.length = 3 := by
  intro setup once console
  have hsource : Source.lowest.Reliable := nofun
  have honce : setup.Serves ["--eval".toList, "+ x 1".toList]
      { Arguments.default .usual with expression := .value "+ x 1".toList } (.fresh .usual)
      .lowest :=
    ⟨by decide, ⟨_, rfl⟩, rfl, rfl, rfl, rfl⟩
  have hconsole : setup.Serves [] (.default .usual) (.fresh .usual) .lowest :=
    ⟨rfl, ⟨_, rfl⟩, rfl, rfl, rfl, rfl⟩
  obtain ⟨hvalue, -⟩ := runProgram_ends setup _ [] _ _ _ honce hsource
  obtain ⟨-, habsent⟩ := runProgram_ends setup _ _ _ _ _ hconsole hsource
  have hreset : Settings.usual.resetError? = none := by decide +kernel
  have hresult : Outcome.result ((Session.fresh .usual).evaluate .usual .lowest
      (Text.closeParentheses (withoutPrompt "+ x 1".toList))) =
      .error (.reported (.invalidNumber "x".toList)) := by
    decide +kernel
  obtain ⟨-, hprompts, hexit, -⟩ := habsent rfl
  refine ⟨hsource, (hvalue _ rfl).2.1.2 ⟨_, hresult⟩, hexit hreset, hprompts.trans ?_⟩
  decide +kernel

theorem runProgram_ends_uncaught :
    let setup := fun settings : Settings => Setup.mk settings .lowest (fun _ => .lowest) true []
    let shallow :=
      { Settings.usual with maxExpressionDepth := 1, limits_writable := by decide +kernel }
    let infinite := { Settings.usual with ansDefault := .infinity false }
    let console := (runProgram (setup shallow) [] [.line "reset".toList, .line "quit".toList]).1
    let once := (runProgram (setup infinite) ["--eval".toList, "% 5".toList] []).1
    console.ending = .failure (.reported (.tooDeep ⟨1, by decide +kernel⟩)) ∧
      console.prompts.length = 1 ∧
      once.ending = .failure (.fault .domain) := by
  decide +kernel

end CommandLine

end PolishCalc
