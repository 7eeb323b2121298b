import PolishCalc.Proofs.Conversation
import PolishCalc.Proofs.Recency

namespace PolishCalc.CommandLine

def afterFirstWord (raw : Text) : Text :=
  Text.trim (raw.trim.drop (raw.trim.words.headD []).length)

def Entry.move? : Entry → Option History.Move
  | .command (.previous draft) => some ⟨.back, some draft⟩
  | .command (.next draft) => some ⟨.forward, some draft⟩
  | _ => none

def recalled? (h : History) (raw : Text) : Option Text :=
  (Entry.ofLine raw).move?.map fun m => (h.browse m).1

theorem Entry.move?_ofLine (raw : Text) : (Entry.ofLine raw).move? =
    if firstWord? raw = some "prev" then some ⟨.back, some (afterFirstWord raw)⟩
    else if firstWord? raw = some "next" then some ⟨.forward, some (afterFirstWord raw)⟩
    else none := by
  rw [firstWord?, afterFirstWord]
  cases hwords : raw.trim.words with
  | nil => simp [Entry.ofLine_of_nil hwords, move?]
  | cons word arguments =>
    by_cases hword : String.ofList word.lower ∈ commandWords
    · rw [Entry.ofLine, hwords]
      dsimp only
      rw [Command.ofName?, List.head?_cons, Option.map_some]
      generalize String.ofList word.lower = name at hword
      simp only [commandWords, List.mem_cons, List.not_mem_nil, or_false] at hword
      rcases hword with rfl | rfl | rfl | rfl | rfl | rfl | rfl | rfl | rfl | rfl <;>
        simp [move?]
    · rw [Entry.ofLine_of_notMem hwords hword, List.head?_cons, Option.map_some]
      have hprev : String.ofList word.lower ≠ "prev" := fun h => hword (h ▸ by decide)
      have hnext : String.ofList word.lower ≠ "next" := fun h => hword (h ▸ by decide)
      simp [move?, hprev, hnext]

namespace Console

def filling (c : Console) (fills : Bool) : Console :=
  { c with fillsPrompts := fills, hook := if fills then c.hook else none }

end Console

def Turn.filling (t : Turn) (fills : Bool) : Turn :=
  { t with console := t.console.filling fills }

namespace Console

variable {settings : Settings} {source : Source} (c : Console) (fills : Bool)

theorem filling_reset :
    (c.filling fills).reset settings source = (c.reset settings source).filling fills ∧
      (c.reset settings source).console.hook = c.hook := by
  simp only [reset, filling]
  generalize c.session.reset settings source = done
  obtain ⟨result, session, records⟩ := done
  cases result <;> exact ⟨rfl, rfl⟩

theorem filling_expression (text : Text) :
    (c.filling fills).expression settings source text =
        (c.expression settings source text).filling fills ∧
      (c.expression settings source text).console.hook = c.hook := by
  simp only [expression, filling]
  split <;> exact ⟨rfl, rfl⟩

theorem filling_command {name : Command} (h : (Entry.command name).move? = none) :
    (c.filling fills).command settings source name =
        (c.command settings source name).filling fills ∧
      (c.command settings source name).console.hook = c.hook := by
  cases name with
  | previous draft => cases h
  | next draft => cases h
  | reset => exact c.filling_reset fills
  | precision argument =>
    cases argument with
    | none => exact ⟨rfl, rfl⟩
    | some argument =>
      simp only [command]
      split
      · exact ⟨rfl, rfl⟩
      split
      · exact ⟨rfl, rfl⟩
      cases Setting.readInteger argument <;> exact ⟨rfl, rfl⟩
  | _ => exact ⟨rfl, rfl⟩

theorem submit_cases (settings : Settings) (source : Source) (raw : Text) :
    (∃ moved, recalled? c.session.history raw = some moved.1 ∧
      ∀ fills, (c.filling fills).submit settings source raw = (c.filling fills).showEntry moved) ∨
    (recalled? c.session.history raw = none ∧ ∃ turn : Turn, turn.console.hook = c.hook ∧
      ∀ fills, (c.filling fills).submit settings source raw = turn.filling fills) := by
  unfold recalled? submit
  generalize Entry.ofLine raw = entry
  cases hmove : entry.move? with
  | none =>
    refine .inr ⟨rfl, ?_⟩
    cases entry with
    | blank => exact ⟨c.say [], rfl, fun _ => rfl⟩
    | command name =>
      exact ⟨_, (c.filling_command false hmove).2, fun fills => (c.filling_command fills hmove).1⟩
    | expression text =>
      exact ⟨_, (c.filling_expression false text).2, fun fills =>
        (c.filling_expression fills text).1⟩
  | some m =>
    refine .inl ⟨c.session.history.browse m, rfl, fun fills => ?_⟩
    rw [Entry.move?.eq_def] at hmove
    split at hmove
    · cases hmove
      rfl
    · cases hmove
      rfl
    · cases hmove

end Console

namespace Console

variable {settings : Settings} {source : Source} (c : Console)

theorem filling_answer (fills : Bool) (raw : Text) :
    (c.filling fills).answer settings source (some (.line raw)) =
      (Console.filling { c with hook := none } fills).submit settings source raw := by
  cases fills <;> rfl

theorem console_filling_answer (fills : Bool) (raw : Text) :
    ((c.filling fills).answer settings source (some (.line raw))).console =
      ((c.filling true).answer settings source (some (.line raw))).console.filling fills := by
  rw [filling_answer, filling_answer]
  rcases submit_cases { c with hook := none } settings source raw with
    ⟨moved, -, hsubmit⟩ | ⟨-, turn, -, hsubmit⟩
  · rw [hsubmit, hsubmit]
    cases fills <;> rfl
  · rw [hsubmit, hsubmit]
    cases fills <;> rfl

theorem answer_recalls (settings : Settings) (source : Source) (raw : Text) :
    let recalled := recalled? c.session.history raw
    let filled := (c.filling true).answer settings source (some (.line raw))
    let plain := (c.filling false).answer settings source (some (.line raw))
    filled.console.hook = recalled ∧ plain.console.hook = none ∧
      (recalled = none → plain.printed = filled.printed) ∧
      ∀ text, recalled = some text → filled.printed = [] ∧ plain.printed = text ++ ['\n'] := by
  dsimp only
  rw [filling_answer, filling_answer]
  rcases submit_cases { c with hook := none } settings source raw with
    ⟨moved, hrecalled, hsubmit⟩ | ⟨hrecalled, turn, hhook, hsubmit⟩
  · simp only [hrecalled, hsubmit]
    refine ⟨rfl, rfl, nofun, fun text h => ?_⟩
    obtain rfl := Option.some.inj h
    exact ⟨rfl, rfl⟩
  · simp only [hrecalled, hsubmit]
    exact ⟨hhook, rfl, fun _ => rfl, nofun⟩

end Console

def Desk.recalls (settings : Settings) (source : Source) (d : Desk) : List Text → List (Option Text)
  | [] => []
  | raw :: rest =>
    recalled? d.session.history raw :: (d.step settings source raw).recalls settings source rest

def Console.replies (settings : Settings) (source : Source) (c : Console) : List Text → List Text
  | [] => []
  | raw :: rest =>
    let turn := c.answer settings source (some (.line raw))
    turn.printed :: turn.console.replies settings source rest

def transcript (replies : List Text) : Text :=
  replies.flatMap (prompt ++ ·)

theorem getElem?_recalls (settings : Settings) (source : Source) (d : Desk) (lines : List Text)
    (k : Nat) : (d.recalls settings source lines)[k]? =
      lines[k]?.map (recalled? ((lines.take k).foldl (Desk.step settings source) d).session.history)
      := by
  induction lines generalizing d k with
  | nil => rfl
  | cons raw lines ih =>
    cases k with
    | zero => rfl
    | succ k => exact ih _ k

theorem length_recalls (settings : Settings) (source : Source) (d : Desk) (lines : List Text) :
    (d.recalls settings source lines).length = lines.length := by
  induction lines generalizing d with
  | nil => rfl
  | cons raw lines ih => exact congrArg (· + 1) (ih _)

theorem Console.length_replies (settings : Settings) (source : Source) (c : Console)
    (lines : List Text) : (c.replies settings source lines).length = lines.length := by
  induction lines generalizing c with
  | nil => rfl
  | cons raw lines ih => exact congrArg (· + 1) (ih _)

theorem exists_of_typed_cons {settings : Settings} (hreset : settings.resetError? = none)
    {inputs : List Input} {raw : Text} {lines : List Text} (h : typed inputs = raw :: lines) :
    ∃ rest, inputs = .line raw :: rest ∧ typed rest = lines ∧
      (Input.line raw).ending? settings = none := by
  rw [typed.eq_def] at h
  split at h
  · split at h
    · cases h
    · rename_i hstays
      cases h
      exact ⟨_, rfl, rfl, (ending?_line hreset _).2 hstays⟩
  · cases h

namespace Console

variable {settings : Settings} (hreset : settings.resetError? = none) (source : Source)

include hreset

theorem run_of_typed_nil {inputs : List Input} (h : typed inputs = []) :
    ∃ last, ∀ c : Console,
      (c.run settings source inputs).printed = prompt ++ last ∧
        (c.run settings source inputs).prompts = [c.hook] := by
  cases inputs with
  | nil => exact ⟨'\n' :: line "Goodbye.".toList, fun c => by
      rw [run_nil]
      exact ⟨rfl, rfl⟩⟩
  | cons input rest =>
    cases input with
    | interrupt => exact ⟨'\n' :: line "Goodbye.".toList, fun c => by
        rw [run_cons_some rfl]
        exact ⟨rfl, rfl⟩⟩
    | line raw =>
      have hleaves : firstWord? raw ∈ leavingWords.map some := by
        by_contra hstays
        rw [typed, if_neg hstays] at h
        cases h
      obtain ⟨ending, hending⟩ := exists_ending_of_leaving hreset hleaves
      have hentry : Entry.ofLine raw = .command .quit :=
        Entry.eq_quit_of_ending? hreset hending
      refine ⟨line "Goodbye.".toList, fun c => ?_⟩
      rw [run_cons_some hending, answer, submit, hentry]
      exact ⟨rfl, rfl⟩

theorem run_printed (inputs : List Input) :
    ∃ last, ∀ c : Console,
      (c.run settings source inputs).printed =
        transcript (c.replies settings source (typed inputs)) ++ prompt ++ last := by
  induction hlines : typed inputs generalizing inputs with
  | nil =>
    obtain ⟨last, hlast⟩ := run_of_typed_nil hreset source hlines
    exact ⟨last, fun c => (hlast c).1⟩
  | cons raw lines ih =>
    obtain ⟨rest, rfl, hrest, hending⟩ := exists_of_typed_cons hreset hlines
    obtain ⟨last, hlast⟩ := ih rest hrest
    refine ⟨last, fun c => ?_⟩
    rw [run_cons_none hending]
    dsimp only
    rw [hlast, replies, transcript, transcript, List.flatMap_cons]
    simp only [List.append_assoc]

variable (c : Console)

theorem run_prompts (fills : Bool) (inputs : List Input) :
    ((c.filling fills).run settings source inputs).prompts =
      (c.filling fills).hook :: if fills then c.desk.recalls settings source (typed inputs)
        else List.replicate (typed inputs).length none := by
  induction hlines : typed inputs generalizing c inputs with
  | nil =>
    obtain ⟨last, hlast⟩ := run_of_typed_nil hreset source hlines
    rw [(hlast _).2]
    cases fills <;> rfl
  | cons raw lines ih =>
    obtain ⟨rest, rfl, hrest, hending⟩ := exists_of_typed_cons hreset hlines
    have hdesk := (c.filling true).desk_answer source hreset raw
    obtain ⟨hfilled, -⟩ := c.answer_recalls settings source raw
    rw [run_cons_none hending]
    dsimp only
    rw [c.console_filling_answer, ih _ rest hrest, hdesk]
    cases fills with
    | true => exact congrArg (_ :: · :: _) hfilled
    | false => rfl

theorem replies_filling (lines : List Text) (k : Nat) :
    let recalled := (c.desk.recalls settings source lines)[k]?
    let filled := ((c.filling true).replies settings source lines)[k]?
    let plain := ((c.filling false).replies settings source lines)[k]?
    (recalled = some none → plain = filled) ∧
      ∀ text, recalled = some (some text) → filled = some [] ∧ plain = some (text ++ ['\n']) := by
  induction lines generalizing c k with
  | nil => exact ⟨nofun, nofun⟩
  | cons raw lines ih =>
    cases k with
    | zero =>
      obtain ⟨-, -, hsame, htext⟩ := c.answer_recalls settings source raw
      refine ⟨fun h => congrArg some (hsame (Option.some.inj h)), fun text h => ?_⟩
      obtain ⟨hfilled, hplain⟩ := htext text (Option.some.inj h)
      exact ⟨congrArg some hfilled, congrArg some hplain⟩
    | succ k =>
      have hlater := ih ((c.filling true).answer settings source (some (.line raw))).console k
      rw [desk_answer source _ hreset raw, ← c.console_filling_answer,
        ← c.console_filling_answer] at hlater
      exact hlater

end Console

theorem Setup.Serves.filling {setup : Setup} {argv : List Text} {a : Arguments} {s : Session}
    {source : Source} (h : setup.Serves argv a s source) (fills : Bool) :
    Setup.Serves { setup with fillsPrompts := fills } argv a s source :=
  ⟨h.arguments, h.logging, h.version, h.healthCheck, h.session, h.source⟩

/-- The prompts of the console. The first is empty. The one after a line is filled if and only if
the first word of the line is that of a step through the history, in any case: with the text that
this step gives on the history as it is then, the rest of the line being the draft. Where prompts
cannot be filled in, none is. The same texts are printed instead, each where nothing else is
replied. -/
theorem runProgram_prompts (setup : Setup) (argv : List Text) (inputs : List Input) (a : Arguments)
    (s : Session) (source : Source) (h : setup.Serves argv a s source) (ha : a.expression = .absent)
    (hreset : setup.settings.resetError? = none) :
    let lines := typed inputs
    let c : Console := ⟨s, a.verbose, a.format, true, none⟩
    let filled := (runProgram { setup with fillsPrompts := true } argv inputs).1
    let plain := (runProgram { setup with fillsPrompts := false } argv inputs).1
    (filled.prompts.length = lines.length + 1 ∧ filled.prompts.head? = some none ∧
      ∀ k raw, lines[k]? = some raw →
        let reached := c.after setup.settings source ((lines.take k).map .line)
        let draft := some (afterFirstWord raw)
        (firstWord? raw = some "prev" →
          filled.prompts[k + 1]? = some (some (reached.session.history.previous draft).1)) ∧
        (firstWord? raw = some "next" →
          filled.prompts[k + 1]? = some (some (reached.session.history.next draft).1)) ∧
        (firstWord? raw ≠ some "prev" → firstWord? raw ≠ some "next" →
          filled.prompts[k + 1]? = some none)) ∧
    plain.prompts = List.replicate (lines.length + 1) none ∧
    ∃ (replies echoes : List Text) (last : Text), replies.length = lines.length ∧
      echoes.length = lines.length ∧
      filled.printed = greeting ++ (transcript replies ++ prompt ++ last) ∧
      plain.printed = greeting ++ (transcript echoes ++ prompt ++ last) ∧
      ∀ k, (filled.prompts[k + 1]? = some none → echoes[k]? = replies[k]?) ∧
        ∀ text, filled.prompts[k + 1]? = some (some text) →
          replies[k]? = some [] ∧ echoes[k]? = some (text ++ ['\n']) := by
  intro lines c filled plain
  have hfilled : filled = { (c.filling true).run setup.settings source inputs with
      printed := greeting ++ ((c.filling true).run setup.settings source inputs).printed } :=
    (h.filling true).runProgram_absent ha inputs
  have hplain : plain = { (c.filling false).run setup.settings source inputs with
      printed := greeting ++ ((c.filling false).run setup.settings source inputs).printed } :=
    (h.filling false).runProgram_absent ha inputs
  have hprompts : filled.prompts = none :: c.desk.recalls setup.settings source lines := by
    rw [hfilled]
    exact c.run_prompts hreset source true inputs
  obtain ⟨last, hlast⟩ := Console.run_printed hreset source inputs
  refine ⟨⟨?_, ?_, fun k raw hk => ?_⟩, ?_, (c.filling true).replies setup.settings source lines,
    (c.filling false).replies setup.settings source lines, last, ?_, ?_, ?_, ?_, fun k => ?_⟩
  · rw [hprompts, List.length_cons, length_recalls]
  · rw [hprompts, List.head?_cons]
  · have hreached := c.desk_after hreset source (lines.take k)
    rw [hprompts, List.getElem?_cons_succ, getElem?_recalls, hk, Option.map_some, recalled?,
      Entry.move?_ofLine, ← hreached]
    refine ⟨fun hprev => ?_, fun hnext => ?_, fun hprev hnext => ?_⟩
    · rw [if_pos hprev]
      rfl
    · rw [if_neg (by simp [hnext]), if_pos hnext]
      rfl
    · rw [if_neg hprev, if_neg hnext]
      rfl
  · rw [hplain]
    exact c.run_prompts hreset source false inputs
  · exact Console.length_replies ..
  · exact Console.length_replies ..
  · rw [hfilled, hlast]
  · rw [hplain, hlast]
  · rw [hprompts, List.getElem?_cons_succ]
    exact c.replies_filling hreset source lines k

theorem runProgram_prompts_draft :
    let setup : Setup := ⟨.usual, .lowest, fun _ => .lowest, true, []⟩
    let inputs := ["+ 1 2", " PREV  * 3", "next", "ans", "quit", "prev"].map
      fun raw => Input.line raw.toList
    let filled := (runProgram setup [] inputs).1
    let plain := (runProgram { setup with fillsPrompts := false } [] inputs).1
    (Settings.usual.resetError? = none ∧ (Arguments.default .usual).expression = .absent ∧
        setup.Serves [] (.default .usual) (.fresh .usual) .lowest) ∧
      (filled.prompts.length = 5 ∧ filled.prompts.head? = some none ∧
        filled.prompts[2]? = some (some "+ 1 2".toList) ∧
        filled.prompts[3]? = some (some "* 3".toList) ∧ filled.prompts[4]? = some none) ∧
      plain.prompts = List.replicate 5 none ∧
      ∃ (replies echoes : List Text) (last : Text), replies.length = 4 ∧ echoes.length = 4 ∧
        plain.printed = greeting ++ (transcript echoes ++ prompt ++ last) ∧
        (replies[1]? = some [] ∧ echoes[1]? = some "+ 1 2\n".toList) ∧
        (replies[2]? = some [] ∧ echoes[2]? = some "* 3\n".toList) ∧
        echoes[3]? = replies[3]? := by
  intro setup inputs filled plain
  have hserves : setup.Serves [] (.default .usual) (.fresh .usual) .lowest :=
    ⟨rfl, ⟨_, rfl⟩, rfl, rfl, rfl, rfl⟩
  have hreset : Settings.usual.resetError? = none := by decide +kernel
  have htyped : typed inputs = ["+ 1 2", " PREV  * 3", "next", "ans"].map String.toList := by
    decide +kernel
  obtain ⟨⟨hlength, hfirst, hlines⟩, hplain, replies, echoes, last, hreplies, hechoes, -, hprinted,
    htexts⟩ := runProgram_prompts setup [] inputs _ _ _ hserves rfl hreset
  rw [htyped] at hlength hplain hlines hreplies hechoes
  have hprev := (hlines 1 _ rfl).1 (by decide +kernel)
  have hnext := (hlines 2 _ rfl).2.1 (by decide +kernel)
  have hanswer := (hlines 3 _ rfl).2.2 (by decide +kernel) (by decide +kernel)
  have hrecent : filled.prompts[2]? = some (some "+ 1 2".toList) :=
    hprev.trans (by decide +kernel)
  have hdraft : filled.prompts[3]? = some (some "* 3".toList) :=
    hnext.trans (by decide +kernel)
  exact ⟨⟨hreset, rfl, hserves⟩, ⟨hlength, hfirst, hrecent, hdraft, hanswer⟩, hplain,
    replies, echoes, last, hreplies, hechoes, hprinted, (htexts 1).2 _ hrecent,
    (htexts 2).2 _ hdraft, (htexts 3).1 hanswer⟩

end PolishCalc.CommandLine
