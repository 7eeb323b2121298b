import PolishCalc.Proofs.Acceptance
import PolishCalc.Proofs.Conversation
import PolishCalc.Proofs.Recency

namespace PolishCalc

open CommandLine

structure Resubmittable (settings : Settings) (e : Text) : Prop where
  trimmed : e.Trimmed
  length : e.length ≤ settings.maxInputLength
  spelled : ∃ t : Tree, t.Accepted settings.maxExpressionDepth ∧
    Text.Spaced t.words e.pointForComma

namespace Resubmittable

variable {settings : Settings} {source : Source} {s : Session} {e : Text}

theorem balanced (h : Resubmittable settings e) : e.Balanced := by
  obtain ⟨t, ht, hspaced⟩ := h.spelled
  exact Text.balanced_pointForComma.1 (ht.wellFormed.grammatical.balanced_of_spaced hspaced)

theorem ofLine_eq (h : Resubmittable settings e) : Entry.ofLine e = .expression e := by
  obtain ⟨t, ht, hspaced⟩ := h.spelled
  have hhead : (Token.ofLine e.pointForComma).head? = some (.operator t.operator) := by
    rw [ht.wellFormed.grammatical.ofLine_spaced hspaced]
    rfl
  rw [Entry.ofLine_of_operator hhead, h.trimmed.trim_eq]

theorem of_evaluate {reduced : Double × Memory} (htrimmed : e.Trimmed)
    (h : s.evaluate settings source e = .ok reduced) : Resubmittable settings e := by
  have hline : evaluateLine (s.rules settings source none none) (s.memory false) e =
    .ok reduced := h
  obtain ⟨t, ht, hspaced, hlength⟩ := exists_accepted_of_evaluateLine hline
  exact ⟨htrimmed, hlength, t, ht, hspaced⟩

theorem evaluate_or (h : Resubmittable settings e) (hsource : source.Reliable)
    (hs : s.Sound settings) :
    (∃ reduced, s.evaluate settings source e = .ok reduced) ∨
      ∃ error memory, s.evaluate settings source e = .error ⟨.reported error, memory⟩ ∧
        error.OfValue := by
  have hends := Session.outcome_sound hsource hs e false none none
  have hline : s.evaluate settings source e =
      evaluateLine (s.rules settings source none none) (s.memory false) e := rfl
  cases houtcome : s.evaluate settings source e with
  | ok reduced => exact .inl ⟨reduced, rfl⟩
  | error stop =>
    have hsound : stop.Sound settings.maxExpressionDepth := by
      rw [show s.outcome settings source e false (.ofPrecision none) none = .error stop from
        houtcome] at hends
      exact hends
    obtain ⟨t, ht, hspaced⟩ := h.spelled
    rw [hline, ht.wellFormed.grammatical.evaluateLine_eq hspaced h.length] at houtcome
    have hstop : stop.InReduction (s.rules settings source none none) :=
      Tree.Accepted.evaluate_error ht houtcome
    obtain ⟨failure, memory⟩ := stop
    obtain ⟨error, rfl⟩ := hsound.2.of_writable settings.limits_writable.2
    exact .inr ⟨error, memory, rfl, hstop.ofValue rfl⟩

theorem trimmed_resetExpression (settings : Settings) : (resetExpression settings).Trimmed := by
  obtain ⟨hne, hword⟩ := (isOperand_display settings.ansDefault).1
  have hsolid : ∀ c ∈ settings.ansDefault.display, isBlank c = false := fun c hc =>
    (Bool.or_eq_false_iff.1 (hword c hc)).1
  exact Text.trimmed_append (show isBlank '+' = false from rfl) " (- 1 1) ".toList hne hsolid

theorem of_resetExpression (hreset : settings.resetError? = none) :
    Resubmittable settings (resetExpression settings) := by
  have hresult := result_resetExpression ((Session.fresh settings).rules settings .lowest none none)
    rfl rfl ((Session.fresh settings).memory false)
  rw [hreset] at hresult
  obtain ⟨reduced, hline⟩ := hresult
  have hevaluate : (Session.fresh settings).evaluate settings .lowest (resetExpression settings) =
      .ok reduced := hline
  exact of_evaluate (trimmed_resetExpression settings) hevaluate

end Resubmittable

structure History.Keeps (P : Text → Prop) (h : History) : Prop where
  nodup : h.entries.Nodup
  entries : ∀ e ∈ h.entries, P e

namespace History.Keeps

variable {P : Text → Prop} {h : History}

theorem add (hh : h.Keeps P) {text : Text} (htext : P text) : (h.add text).Keeps P := by
  have hentries := entries_add hh.nodup text
  constructor
  · rw [hentries, List.nodup_append]
    refine ⟨hh.nodup.filter _, List.nodup_singleton text, fun e he text' htext' heq => ?_⟩
    obtain rfl := List.mem_singleton.1 htext'
    simp [heq] at he
  · rw [hentries]
    refine List.forall_mem_append.2 ⟨fun e he => hh.entries e (List.mem_of_mem_filter he), ?_⟩
    simpa using htext

theorem browse (hh : h.Keeps P) (m : Move) : (h.browse m).2.Keeps P := by
  have hentries := h.entries_browse m
  exact ⟨hentries ▸ hh.nodup, hentries ▸ hh.entries⟩

theorem clear (hsentinel : P h.sentinel) : h.clear.Keeps P :=
  ⟨List.nodup_singleton _, by simpa [History.clear, History.new] using hsentinel⟩

end History.Keeps

theorem History.add_resetCursor (h : History) (text : Text) :
    h.resetCursor.add text = h.add text :=
  rfl

theorem History.mem_add {h : History} {e : Text} (he : e ∈ h.entries) (text : Text) :
    e ∈ (h.add text).entries := by
  unfold add
  split
  · exact he
  by_cases heq : e = text
  · simp [heq]
  · exact List.mem_append_left _ ((List.mem_erase_of_ne heq).2 he)

theorem Session.history_perform (settings : Settings) (source : Source) (s : Session)
    (action : Action) :
    (s.perform settings source action).2.history =
      match action with
      | .addEntry text => s.history.add text
      | .previousEntry draft => (s.history.previous draft).2
      | .nextEntry draft => (s.history.next draft).2
      | .resetCursor => s.history.resetCursor
      | .clearHistory => s.history.clear
      | .resetSession => s.history.clear
      | _ => s.history := by
  cases action with
  | setAnswer value digits =>
    rw [perform]
    cases s.answer.set settings.defaultPrecision value digits <;> rfl
  | setPrecision digits =>
    rw [perform]
    cases s.precision.set digits <;> rfl
  | resetSession =>
    cases h : s.cleared.resetAnswer settings source with
    | ok reduced =>
      rw [perform_resetSession_ok h]
      rfl
    | error stop =>
      rw [perform_resetSession_error h]
      rfl
  | _ => rfl

structure Session.Kept (settings : Settings) (s : Session) : Prop where
  sound : s.Sound settings
  log : s.history.Keeps (Resubmittable settings)

def Action.Clears : Action → Prop
  | .clearHistory => True
  | .resetSession => True
  | _ => False

section

variable {settings : Settings} {source : Source}

theorem Session.mem_perform {s : Session} {action : Action} (haction : ¬ action.Clears) {e : Text}
    (he : e ∈ s.history.entries) : e ∈ (s.perform settings source action).2.history.entries := by
  rw [history_perform]
  cases action with
  | addEntry text => exact History.mem_add he text
  | previousEntry draft => exact (s.history.entries_browse ⟨.back, draft⟩).symm ▸ he
  | nextEntry draft => exact (s.history.entries_browse ⟨.forward, draft⟩).symm ▸ he
  | clearHistory => exact absurd trivial haction
  | resetSession => exact absurd trivial haction
  | _ => exact he

variable (hreset : settings.resetError? = none) (hsource : source.Reliable)

include hreset hsource

theorem Session.Kept.perform {s : Session} (hs : s.Kept settings) {action : Action}
    (haction : action.Plain) (hadded : ∀ text, action = .addEntry text →
      Resubmittable settings text) :
    (s.perform settings source action).2.Kept settings where
  sound := (Session.perform_safe hsource hs.sound haction).sound
  log := by
    have hcleared : s.history.clear.Keeps (Resubmittable settings) :=
      .clear (hs.sound.configured.sentinel ▸ .of_resetExpression hreset)
    rw [Session.history_perform]
    cases action with
    | addEntry text => exact hs.log.add (hadded text rfl)
    | previousEntry draft => exact hs.log.browse ⟨.back, draft⟩
    | nextEntry draft => exact hs.log.browse ⟨.forward, draft⟩
    | resetCursor => exact ⟨hs.log.nodup, hs.log.entries⟩
    | clearHistory => exact hcleared
    | resetSession => exact hcleared
    | _ => exact hs.log

end

namespace CommandLine

structure OfCommand (word : String) (action : Action) : Prop where
  plain : action.Plain
  adds : ∀ text, action ≠ .addEntry text
  clears : action.Clears → word = "reset"

theorem ofCommand_precisionAction? {argument : Text} {action : Action}
    (h : precisionAction? argument = some action) : OfCommand "precision" action := by
  unfold precisionAction? at h
  split at h
  · cases h
    exact ⟨trivial, nofun, nofun⟩
  split at h
  · cases h
    exact ⟨trivial, nofun, nofun⟩
  split at h
  · cases h
    exact ⟨⟨_, rfl⟩, nofun, nofun⟩
  · cases h

namespace Desk

variable {settings : Settings} {source : Source} (d : Desk)

theorem obey_session (word : String) (arguments : List Text) (rest : Text) :
    (d.obey settings source word arguments rest).session = d.session ∨
      ∃ action, OfCommand word action ∧ (d.obey settings source word arguments rest).session =
        (d.session.perform settings source action).2 := by
  unfold obey
  split
  · exact .inl rfl
  · cases haction : arguments.head?.bind precisionAction? with
    | none => exact .inl rfl
    | some action =>
      obtain ⟨argument, -, hargument⟩ := Option.bind_eq_some_iff.1 haction
      exact .inr ⟨action, ofCommand_precisionAction? hargument, rfl⟩
  · exact .inr ⟨.resetSession, ⟨trivial, nofun, fun _ => rfl⟩, rfl⟩
  · exact .inr ⟨.previousEntry (some rest), ⟨trivial, nofun, nofun⟩, rfl⟩
  · exact .inr ⟨.nextEntry (some rest), ⟨trivial, nofun, nofun⟩, rfl⟩
  · exact .inl rfl

theorem step_cases (raw : Text) :
    (d.step settings source raw).session = d.session ∨
    (∃ word action, firstWord? raw = some word ∧ OfCommand word action ∧
      (d.step settings source raw).session = (d.session.perform settings source action).2) ∨
    d.step settings source raw = d.enter settings source raw.trim.closeParentheses := by
  rw [step, firstWord?]
  cases raw.trim.words with
  | nil => exact .inl rfl
  | cons word arguments =>
    dsimp only
    split
    · rcases d.obey_session (String.ofList word.lower) arguments
        (Text.trim (raw.trim.drop word.length)) with hnothing | ⟨action, haction, hdone⟩
      · exact .inl hnothing
      · exact .inr (.inl ⟨_, action, rfl, haction, hdone⟩)
    · exact .inr (.inr rfl)

theorem entries_enter (expression : Text) {e : Text} (he : e ∈ d.session.history.entries) :
    e ∈ (d.enter settings source expression).session.history.entries := by
  cases houtcome : d.session.evaluate settings source expression with
  | ok reduced =>
    rw [d.enter_ok houtcome, History.add_resetCursor]
    exact History.mem_add he expression
  | error stop =>
    rw [d.enter_error houtcome]
    exact he

theorem mem_step {raw : Text} (hraw : firstWord? raw ≠ some "reset") {e : Text}
    (he : e ∈ d.session.history.entries) :
    e ∈ (d.step settings source raw).session.history.entries := by
  rcases d.step_cases raw with hnothing | ⟨word, action, hword, haction, hdone⟩ | henter
  · exact hnothing ▸ he
  · rw [hdone]
    refine Session.mem_perform (fun hclears => hraw ?_) he
    rw [hword, haction.clears hclears]
  · rw [henter]
    exact d.entries_enter _ he

variable (hreset : settings.resetError? = none) (hsource : source.Reliable)

include hreset hsource

theorem kept_enter {expression : Text} (htrimmed : expression.Trimmed)
    (hd : d.session.Kept settings) :
    (d.enter settings source expression).session.Kept settings := by
  have hevaluated : (d.session.perform settings source
      (.evaluate expression d.verbose .absent none)).2.Kept settings :=
    hd.perform hreset hsource ⟨none, rfl⟩ fun _ hadded => by cases hadded
  rw [Session.perform_evaluate] at hevaluated
  cases houtcome : d.session.evaluate settings source expression with
  | ok reduced =>
    rw [houtcome] at hevaluated
    rw [d.enter_ok houtcome]
    exact ⟨hevaluated.sound.withHistory (d.session.history.sentinel_add expression),
      hevaluated.log.add (.of_evaluate htrimmed houtcome)⟩
  | error stop =>
    rw [houtcome] at hevaluated
    rw [d.enter_error houtcome]
    exact hevaluated

theorem kept_step (hd : d.session.Kept settings) (raw : Text) :
    (d.step settings source raw).session.Kept settings := by
  rcases d.step_cases raw with hnothing | ⟨word, action, -, haction, hdone⟩ | henter
  · exact hnothing ▸ hd
  · rw [hdone]
    exact hd.perform hreset hsource haction.plain fun text htext => absurd htext (haction.adds text)
  · rw [henter]
    exact d.kept_enter hreset hsource (Text.trimmed_trim raw).closeParentheses hd

end Desk

namespace Console

variable {settings : Settings} {source : Source} {c : Console}

theorem session_answer (hreset : settings.resetError? = none) (raw : Text) :
    (c.answer settings source (some (.line raw))).console.session =
      (c.desk.step settings source raw).session :=
  congrArg Desk.session (c.desk_answer source hreset raw)

theorem kept_after (hreset : settings.resetError? = none) (hsource : source.Reliable)
    (hc : c.session.Kept settings) (inputs : List Input) :
    (c.after settings source inputs).session.Kept settings := by
  induction inputs generalizing c with
  | nil => exact hc
  | cons input inputs ih =>
    refine ih ?_
    cases input with
    | interrupt => exact hc
    | line raw =>
      rw [session_answer hreset]
      exact c.desk.kept_step hreset hsource hc raw

theorem mem_after (hreset : settings.resetError? = none) {inputs : List Input}
    (hinputs : ∀ raw, .line raw ∈ inputs → firstWord? raw ≠ some "reset") {e : Text}
    (he : e ∈ c.session.history.entries) :
    e ∈ (c.after settings source inputs).session.history.entries := by
  induction inputs generalizing c with
  | nil => exact he
  | cons input inputs ih =>
    refine ih (fun raw hraw => hinputs raw (List.mem_cons_of_mem _ hraw)) ?_
    cases input with
    | interrupt => exact he
    | line raw =>
      rw [session_answer hreset]
      exact c.desk.mem_step (hinputs raw List.mem_cons_self) he

end Console

theorem isFinite_of_resetError? {settings : Settings} (hreset : settings.resetError? = none) :
    settings.ansDefault.isFinite = true := by
  rw [Settings.resetError?] at hreset
  split at hreset
  · cases hreset
  split at hreset
  · cases hreset
  split at hreset
  · assumption
  · cases hreset

theorem kept_openSession {settings : Settings} (hreset : settings.resetError? = none)
    {precision : Given Int} {s : Session} (h : openSession settings precision = .ok s) :
    s.Kept settings := by
  have hsound : (Session.fresh settings).Sound settings :=
    Session.sound_fresh (isFinite_of_resetError? hreset)
  have hlog : (Session.fresh settings).history.Keeps (Resubmittable settings) :=
    .clear (h := (Session.fresh settings).history) (.of_resetExpression hreset)
  cases precision with
  | absent =>
    obtain rfl := Except.ok.inj h
    exact ⟨hsound, hlog⟩
  | bare => cases h
  | value n =>
    obtain rfl := Except.ok.inj h
    exact ⟨hsound.setInteger n, hlog⟩

def Resubmitted (settings : Settings) (source : Source) (c : Console) (e : Text) : Prop :=
  let outcome := c.session.evaluate settings source e
  let before := c.session.history
  let after := (c.submit settings source e).console.session.history
  (∃ x memory, outcome = .ok (x, memory) ∧
      after.entries = before.entries.filter (· != e) ++ [e] ∧
      (e ∈ before.entries → after.entries.length = before.entries.length)) ∨
    ∃ error memory, outcome = .error ⟨.reported error, memory⟩ ∧ error.OfValue ∧ after = before

theorem length_entries_add {h : History} (hnodup : h.entries.Nodup) {e : Text}
    (he : e ∈ h.entries) : (h.add e).entries.length = h.entries.length := by
  rw [History.entries_add hnodup, ← hnodup.erase_eq_filter, List.length_append,
    List.length_erase_of_mem he]
  exact Nat.sub_add_cancel (List.length_pos_of_mem he)

theorem resubmitted {settings : Settings} {source : Source} (hsource : source.Reliable)
    {c : Console} (hc : c.session.Kept settings) {e : Text} (he : Resubmittable settings e) :
    Resubmitted settings source c e := by
  have hdesk : (c.submit settings source e).console.desk = c.desk.enter settings source e := by
    rw [Console.submit, he.ofLine_eq]
    refine (c.desk_expression source e).trans ?_
    rw [he.balanced.closeParentheses_eq]
  have hhistory : (c.submit settings source e).console.session.history =
      (c.desk.enter settings source e).session.history :=
    congrArg (fun d => d.session.history) hdesk
  rcases he.evaluate_or hsource hc.sound with ⟨⟨x, memory⟩, hok⟩ | ⟨error, memory, herror, hvalue⟩
  · rw [c.desk.enter_ok hok, History.add_resetCursor] at hhistory
    refine .inl ⟨x, memory, hok, ?_, fun hmem => ?_⟩
    · rw [hhistory]
      exact History.entries_add hc.log.nodup e
    · rw [hhistory]
      exact length_entries_add hc.log.nodup hmem
  · rw [c.desk.enter_error herror] at hhistory
    exact .inr ⟨error, memory, herror, hvalue, hhistory⟩

/-- Every entry of the log can be typed again, now and after all later lines. It is trimmed and
balanced, is never taken for a command, and evaluates or is stopped by a value. If it evaluates it
becomes the last entry, and the log keeps its length if it still holds the entry, which only a reset
takes away. -/
theorem resubmission (settings : Settings) (hreset : settings.resetError? = none)
    (source : Source) (hsource : source.Reliable) (precision : Given Int) (c : Console)
    (hopen : openSession settings precision = .ok c.session) (earlier later : List Input)
    (e : Text) (he : e ∈ (c.after settings source earlier).session.history.entries) :
    let reached := (c.after settings source earlier).after settings source later
    (e.trim = e ∧ e.closeParentheses = e ∧ e.Balanced ∧ Entry.ofLine e = .expression e) ∧
    Resubmitted settings source reached e ∧
    ((∀ raw, .line raw ∈ later → firstWord? raw ≠ some "reset") →
      e ∈ reached.session.history.entries) := by
  have hearlier : (c.after settings source earlier).session.Kept settings :=
    Console.kept_after hreset hsource (kept_openSession hreset hopen) earlier
  have hlater := Console.kept_after hreset hsource hearlier later
  have hsubmit : Resubmittable settings e := hearlier.log.entries e he
  have hbalanced := hsubmit.balanced
  exact ⟨⟨hsubmit.trimmed.trim_eq, hbalanced.closeParentheses_eq, hbalanced, hsubmit.ofLine_eq⟩,
    resubmitted hsource hlater hsubmit, fun hlines => Console.mem_after hreset hlines he⟩

theorem resubmission_usual :
    let c : Console := ⟨.fresh .usual, false, .human, true, none⟩
    let lines := List.map fun raw : String => Input.line raw.toList
    let e : Text := "+ 1 (* 2 3)".toList
    let reached := (c.after .usual .lowest (lines ["  + 1 (* 2 3"])).after .usual .lowest
      (lines ["- 8 ans", "next"])
    (Settings.usual.resetError? = none ∧ Source.lowest.Reliable ∧
        openSession .usual .absent = .ok c.session ∧
        e ∈ (c.after .usual .lowest (lines ["  + 1 (* 2 3"])).session.history.entries) ∧
      e.closeParentheses = e ∧ Resubmitted .usual .lowest reached e ∧
      e ∈ reached.session.history.entries := by
  intro c lines e reached
  have hreset : Settings.usual.resetError? = none := by decide +kernel
  have hsource : Source.lowest.Reliable := nofun
  have he : e ∈ (c.after .usual .lowest (lines ["  + 1 (* 2 3"])).session.history.entries := by
    decide +kernel
  obtain ⟨⟨-, hclosed, -, -⟩, hsubmitted, hkept⟩ := resubmission .usual hreset .lowest hsource
    .absent c rfl (lines ["  + 1 (* 2 3"]) (lines ["- 8 ans", "next"]) e he
  refine ⟨⟨hreset, hsource, rfl, he⟩, hclosed, hsubmitted, hkept fun raw hraw => ?_⟩
  simp only [lines, List.map_cons, List.map_nil, List.mem_cons, Input.line.injEq,
    List.not_mem_nil, or_false] at hraw
  rcases hraw with rfl | rfl <;> decide

theorem resubmission_after_reset :
    let c : Console := ⟨.fresh .usual, false, .human, true, none⟩
    ¬ ∀ (earlier later : List Input) (e : Text),
      e ∈ (c.after .usual .lowest earlier).session.history.entries →
      let reached := (c.after .usual .lowest earlier).after .usual .lowest later
      (Outcome.result (reached.session.evaluate .usual .lowest e)).isOk = true →
      (reached.submit .usual .lowest e).console.session.history.entries.length =
        reached.session.history.entries.length := by
  intro c hkept
  have hlength := hkept [.line "+ 1 2".toList] [.line "reset".toList] "+ 1 2".toList
    (by decide +kernel) (by decide +kernel)
  exact absurd hlength (by decide +kernel)

end CommandLine

end PolishCalc
