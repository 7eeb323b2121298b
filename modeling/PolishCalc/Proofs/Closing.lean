import PolishCalc.Proofs.Endings
import PolishCalc.Proofs.Fields
import PolishCalc.Proofs.Reading
import PolishCalc.Proofs.Surroundings

namespace PolishCalc

namespace Text

theorem Spaced.append {words words' : List Text} {text tail : Text} (h : Spaced words text)
    (htail : Spaced words' tail) (hhead : ∀ c ∈ tail.head?, isBreak c = true) :
    Spaced (words ++ words') (text ++ tail) := by
  induction h with
  | nil => exact htail
  | blank hc _ ih => exact .blank hc ih
  | parenthesis hc _ ih => exact .parenthesis hc ih
  | @word w words text hw hbreak _ ih =>
    rw [List.cons_append, List.append_assoc]
    refine .word hw (fun c hc => ?_) ih
    cases text with
    | nil => exact hhead c hc
    | cons d text => exact hbreak c hc

theorem spaced_closing (n : Nat) :
    Spaced (List.replicate n [')']) (List.replicate n ')') := by
  induction n with
  | zero => exact .nil
  | succ n ih => exact .parenthesis rfl ih

theorem lexemes_trimEnd (text : Text) : text.trimEnd.lexemes = text.lexemes := by
  obtain ⟨blanks, hblanks, heq⟩ := exists_eq_dropEnd_append isBlank text
  calc text.trimEnd.lexemes
      = lexemes (text.trimEnd ++ blanks) := (lexemesFrom_append_blank hblanks [] _).symm
    _ = text.lexemes := congrArg lexemes heq.symm

theorem lexemes_closeParentheses (text : Text) : text.closeParentheses.lexemes =
    text.lexemes ++ List.replicate (text.count '(' - text.count ')') [')'] := by
  rw [closeParentheses]
  split
  · rename_i hnone
    rw [hnone]
    simp
  · refine Spaced.lexemes_eq (.append (lexemes_eq_iff.1 (lexemes_trimEnd text))
      (spaced_closing _) fun c hc => ?_)
    obtain rfl : c = ')' := List.eq_of_mem_replicate (List.mem_of_mem_head? hc)
    rfl

theorem count_append_blank {c : Char} (hc : isBlank c = false) {blanks : Text}
    (h : ∀ d ∈ blanks, isBlank d = true) (text : Text) :
    (text ++ blanks).count c = text.count c := by
  have hzero : blanks.count c = 0 := by
    refine List.count_eq_zero.2 fun hmem => ?_
    cases (h c hmem).symm.trans hc
  rw [List.count_append, hzero, Nat.add_zero]

theorem balanced_of_blank {text : Text} (h : ∀ c ∈ text, isBlank c = true) : text.Balanced := by
  have hzero (front : Text) (hfront : front ⊆ text) :
      front.count ')' = 0 ∧ front.count '(' = 0 := by
    have hblank : ∀ c ∈ front, isBlank c = true := fun c hc => h c (hfront hc)
    exact ⟨count_append_blank rfl hblank [], count_append_blank rfl hblank []⟩
  refine ⟨fun front hfront => ?_, ?_⟩
  · rw [(hzero front hfront.subset).1]
    exact Nat.zero_le _
  · obtain ⟨hclosing, hopening⟩ := hzero text (List.Subset.refl text)
    rw [hclosing, hopening]

theorem count_trimEnd {c : Char} (hc : isBlank c = false) (text : Text) :
    text.trimEnd.count c = text.count c := by
  obtain ⟨blanks, hblanks, heq⟩ := exists_eq_dropEnd_append isBlank text
  exact (count_append_blank hc hblanks text.trimEnd).symm.trans (congrArg (List.count c) heq.symm)

theorem count_opening_replicate (n : Nat) : (List.replicate n ')').count '(' = 0 := by
  simp [List.count_replicate]

theorem hasStray_trimEnd_iff {text : Text} : HasStray text.trimEnd ↔ HasStray text := by
  obtain ⟨blanks, hblanks, heq⟩ := exists_eq_dropEnd_append isBlank text
  have htext : text = text.trimEnd ++ blanks := heq
  refine ⟨fun h => h.mono ⟨blanks, htext.symm⟩, ?_⟩
  rintro ⟨front, hfront, hover⟩
  rw [htext] at hfront
  rcases prefix_or_of_prefix_append hfront with hinside | ⟨rest, ⟨later, hlater⟩, rfl⟩
  · exact ⟨front, hinside, hover⟩
  · have hblank : ∀ c ∈ rest, isBlank c = true := fun c hc =>
      hblanks c (hlater ▸ List.mem_append_left _ hc)
    rw [Overcloses, count_append_blank rfl hblank, count_append_blank rfl hblank] at hover
    exact ⟨text.trimEnd, List.prefix_rfl, hover⟩

theorem balanced_append_closing_iff {text : Text} {n : Nat}
    (hcount : text.count '(' = text.count ')' + n) :
    Balanced (text ++ List.replicate n ')') ↔ ¬ text.HasStray := by
  refine ⟨fun h hstray => h.not_hasStray (hstray.mono (List.prefix_append _ _)), ?_⟩
  intro hstray
  have hfronts : ∀ front, front <+: text → front.count ')' ≤ front.count '(' :=
    fun front hfront => Nat.not_lt.1 fun hover => hstray ⟨front, hfront, hover⟩
  refine ⟨fun front hfront => ?_, ?_⟩
  · rcases prefix_or_of_prefix_append hfront with hinside | ⟨rest, hrest, rfl⟩
    · exact hfronts front hinside
    · have hle := hrest.sublist.count_le ')'
      rw [List.count_replicate_self] at hle
      rw [List.count_append, List.count_append]
      omega
  · rw [List.count_append, List.count_append, List.count_replicate_self, count_opening_replicate]
    omega

theorem balanced_closeParentheses_iff {text : Text} :
    text.closeParentheses.Balanced ↔ ¬ text.HasStray := by
  rw [closeParentheses]
  split
  · rename_i hnone
    refine ⟨Balanced.not_hasStray, fun hstray => ?_⟩
    have hle : text.count ')' ≤ text.count '(' := Nat.not_lt.1 fun hover =>
      hstray ⟨text, List.prefix_rfl, hover⟩
    have hbalanced := (balanced_append_closing_iff (n := 0) (by omega)).2 hstray
    rwa [List.replicate_zero, List.append_nil] at hbalanced
  · rw [balanced_append_closing_iff, hasStray_trimEnd_iff]
    rw [count_trimEnd rfl, count_trimEnd rfl]
    omega

theorem closeParentheses_eq_self_iff {text : Text} :
    text.closeParentheses = text ↔ text.count '(' ≤ text.count ')' := by
  rw [closeParentheses]
  split
  · rename_i hnone
    exact iff_of_true rfl (Nat.sub_eq_zero_iff_le.1 hnone)
  · rename_i hmissing
    refine iff_of_false (fun heq => hmissing ?_) (fun hle => hmissing (Nat.sub_eq_zero_of_le hle))
    have hcount := congrArg (List.count ')') heq
    rw [List.count_append, count_trimEnd rfl, List.count_replicate_self] at hcount
    omega

theorem hasStray_closeParentheses {text : Text} (h : text.HasStray) :
    text.closeParentheses.HasStray := by
  rw [closeParentheses]
  split
  · exact h
  · exact (hasStray_trimEnd_iff.2 h).mono (List.prefix_append _ _)

theorem closeParentheses_idem (text : Text) :
    text.closeParentheses.closeParentheses = text.closeParentheses := by
  rw [closeParentheses_eq_self_iff, closeParentheses]
  split
  · rename_i hnone
    exact Nat.sub_eq_zero_iff_le.1 hnone
  · rw [List.count_append, List.count_append, count_trimEnd rfl, count_trimEnd rfl,
      count_opening_replicate, List.count_replicate_self]
    omega

end Text

def CalcError.BlamesParenthesis (error : CalcError) : Prop :=
  error.code = "UNBALANCED".toList

theorem CalcError.OfEntry.not_blames {error : CalcError} (h : error.OfEntry) :
    ¬ error.BlamesParenthesis := by
  rcases h with ⟨limit, rfl⟩ | ⟨found, rfl⟩
  · exact show "TOO_DEEP".toList ≠ "UNBALANCED".toList by decide
  · exact show "INVALID_SYMBOL".toList ≠ "UNBALANCED".toList by decide

theorem CalcError.OfReduction.not_blames {error : CalcError} (h : error.OfReduction) :
    ¬ error.BlamesParenthesis := by
  intro hblames
  rcases h with rfl | h
  · cases hblames
  · refine h.not_ofForm ?_
    rw [CalcError.OfForm, show error.code = "UNBALANCED".toList from hblames]
    decide

namespace Progress

variable {rules : Rules} {error : CalcError} {after : Memory}

theorem Fails.not_blames {p : Progress} {token : Token} (h : Fails p token error)
    (hclosing : token = .closing → p.outer ≠ []) : ¬ error.BlamesParenthesis := by
  cases h with
  | entry hentry => exact hentry.not_blames
  | empty => exact show "EMPTY_INPUT".toList ≠ "UNBALANCED".toList by decide
  | unmatched houter => exact absurd houter (hclosing rfl)
  | reduction hreduction => exact hreduction.not_blames
  | operand => exact show "NUMBER_ERROR".toList ≠ "UNBALANCED".toList by decide

theorem not_blames_of_readAll {p : Progress} {tokens : List Token}
    (hcloses : Text.Closes p.outer.length (Token.outline tokens))
    (h : p.readAll rules tokens = .error ⟨.reported error, after⟩) :
    ¬ error.BlamesParenthesis := by
  induction tokens generalizing p with
  | nil => cases h
  | cons token tokens ih =>
    cases hread : p.read rules token with
    | error stop =>
      rw [readAll_cons_error hread] at h
      cases h
      refine (fails_of_read hread).not_blames ?_
      rintro rfl
      exact List.ne_nil_of_length_pos (Token.closes_outline_closing.1 hcloses).1
    | ok q =>
      rw [readAll_cons_ok hread] at h
      exact ih (((moves_of_read hread).closes_iff tokens).1 hcloses) h

end Progress

theorem not_blames_of_evaluateTokens {rules : Rules} {memory after : Memory} {tokens : List Token}
    {error : CalcError} (hbalanced : Token.Balanced tokens)
    (h : evaluateTokens rules memory tokens = .error ⟨.reported error, after⟩) :
    ¬ error.BlamesParenthesis := by
  rw [evaluateTokens] at h
  rcases bind_eq_error h with hread | ⟨q, -, hfinish⟩
  · have hcloses := Token.balanced_iff_closes.1 hbalanced
    exact Progress.not_blames_of_readAll (p := Progress.start memory) hcloses hread
  · rcases Progress.error_of_finish hfinish with hentry | hreduction
    · exact hentry.not_blames
    · exact hreduction.not_blames

theorem evaluateLine_blames_iff {rules : Rules} {memory : Memory} {line : Text} :
    (∃ error after, evaluateLine rules memory line = .error ⟨.reported error, after⟩ ∧
        error.BlamesParenthesis) ↔
      line.length ≤ rules.maxLength ∧ (¬ ∀ c ∈ line, isBlank c = true) ∧ ¬ line.Balanced := by
  rw [evaluateLine]
  constructor
  · rintro ⟨error, after, h, hblames⟩
    by_cases hlong : rules.maxLength < line.length
    · rw [readLine_tooLong hlong] at h
      cases h
      cases hblames
    have hlength := Int.not_lt.1 hlong
    by_cases hblank : ∀ c ∈ line, isBlank c = true
    · rw [readLine_blank hlength hblank] at h
      cases h
      cases hblames
    refine ⟨hlength, hblank, fun hbalanced => ?_⟩
    rw [readLine_ok hlength hblank hbalanced] at h
    have htokens := Token.balanced_ofLine.2 (Text.balanced_pointForComma.2 hbalanced)
    exact not_blames_of_evaluateTokens htokens h hblames
  · rintro ⟨hlength, hblank, hbalanced⟩
    rcases readLine_unbalanced hlength hblank hbalanced with hread | hread
    · exact ⟨.unmatchedClosing, memory, by rw [hread], rfl⟩
    · exact ⟨.unmatchedOpening, memory, by rw [hread], rfl⟩

theorem evaluateLine_of_hasStray {rules : Rules} {line : Text}
    (hlength : line.length ≤ rules.maxLength) (h : line.HasStray) (memory : Memory) :
    evaluateLine rules memory line = .error ⟨.reported .unmatchedClosing, memory⟩ := by
  obtain ⟨i, himbalance⟩ := h.imbalance?_eq
  rw [evaluateLine, readLine_imbalance hlength himbalance]
  rfl

theorem Session.evaluate_blames_iff {settings : Settings} {source : Source} {s : Session}
    {line : Text} :
    (∃ error after, s.evaluate settings source line = .error ⟨.reported error, after⟩ ∧
        error.BlamesParenthesis) ↔
      line.length ≤ settings.maxInputLength ∧ (¬ ∀ c ∈ line, isBlank c = true) ∧
        ¬ line.Balanced := by
  have hline : s.evaluate settings source line =
      evaluateLine (s.rules settings source none none) (s.memory false) line := rfl
  rw [hline]
  exact evaluateLine_blames_iff

theorem balanced_of_evaluateLine {rules : Rules} {memory : Memory} {line : Text}
    {reduced : Double × Memory} (h : evaluateLine rules memory line = .ok reduced) :
    line.Balanced := by
  rw [evaluateLine] at h
  split at h
  · cases h
  · rename_i tokens hread
    exact (readLine_eq_ok_iff.1 hread).2.2.1

theorem balanced_of_outcome {settings : Settings} {source : Source} {s : Session} {line : Text}
    {traced : Bool} {precision : Operand} {maxDepth : Option Int} {x : Double}
    (h : Outcome.result (s.outcome settings source line traced precision maxDepth) = .ok x) :
    line.Balanced := by
  obtain ⟨after, houtcome⟩ := Outcome.result_eq_ok h
  obtain ⟨digits, hplaces⟩ := Session.exists_placesFor_of_outcome houtcome
  rw [Session.outcome_of_placesFor hplaces] at houtcome
  exact balanced_of_evaluateLine houtcome

namespace CommandLine

variable {settings : Settings} {source : Source} {format : Format} {verbose : Bool} {s : Session}
  {raw : Text}

theorem evaluateLine_failure_iff {failure : Failure} :
    (evaluateLine settings source format verbose s raw).failure = some failure ↔
      ∃ after, s.evaluate settings source raw.closeParentheses = .error ⟨failure, after⟩ := by
  cases houtcome : s.evaluate settings source raw.closeParentheses with
  | error stop =>
    rw [(evaluateLine_error houtcome format verbose).1]
    constructor
    · intro h
      obtain rfl := Option.some.inj h
      exact ⟨stop.memory, rfl⟩
    · rintro ⟨after, h⟩
      obtain rfl := Except.error.inj h
      rfl
  | ok reduced =>
    rw [(evaluateLine_ok houtcome format verbose).1]
    constructor
    · intro h
      cases h
    · rintro ⟨_, h⟩
      cases h

theorem evaluateLine_blames_iff :
    (∃ error, (evaluateLine settings source format verbose s raw).failure =
        some (.reported error) ∧ error.code = "UNBALANCED".toList) ↔
      (¬ ∀ c ∈ raw, isBlank c = true) ∧
        raw.closeParentheses.length ≤ settings.maxInputLength ∧ raw.HasStray := by
  have hstray : ¬ raw.closeParentheses.Balanced ↔ raw.HasStray := by
    rw [Text.balanced_closeParentheses_iff, not_not]
  constructor
  · rintro ⟨error, hfailure, hcode⟩
    obtain ⟨after, houtcome⟩ := evaluateLine_failure_iff.1 hfailure
    obtain ⟨hlength, -, hunbalanced⟩ :=
      Session.evaluate_blames_iff.1 ⟨error, after, houtcome, hcode⟩
    have hraw := hstray.1 hunbalanced
    exact ⟨fun hblank => (Text.balanced_of_blank hblank).not_hasStray hraw, hlength, hraw⟩
  · rintro ⟨-, hlength, hraw⟩
    have hunbalanced := hstray.2 hraw
    have hsolid : ¬ ∀ c ∈ raw.closeParentheses, isBlank c = true := fun hblank =>
      hunbalanced (Text.balanced_of_blank hblank)
    obtain ⟨error, after, houtcome, hcode⟩ :=
      Session.evaluate_blames_iff.2 ⟨hlength, hsolid, hunbalanced⟩
    exact ⟨error, evaluateLine_failure_iff.2 ⟨after, houtcome⟩, hcode⟩

theorem evaluateLine_of_hasStray (hlength : raw.closeParentheses.length ≤ settings.maxInputLength)
    (h : raw.HasStray) :
    let evaluated := evaluateLine settings source format verbose s raw
    evaluated.failure = some (.reported .unmatchedClosing) ∧
      evaluated.printed = errorText format .unmatchedClosing := by
  have houtcome : s.evaluate settings source raw.closeParentheses =
      .error ⟨.reported .unmatchedClosing, s.memory false⟩ :=
    PolishCalc.evaluateLine_of_hasStray hlength (Text.hasStray_closeParentheses h) (s.memory false)
  obtain ⟨hfailure, -, hprinted⟩ := evaluateLine_error houtcome format verbose
  exact ⟨hfailure, hprinted .unmatchedClosing rfl⟩

end CommandLine

/-- A completed text is balanced unless the text has a stray closing parenthesis. Its lexemes are
those of the text and the missing parentheses; completing again changes nothing, and completing
changes nothing where none is missing, as in each line that evaluates. So a line that is typed is
reported to be unbalanced if and only if it is not blank, is short enough when it is completed, and
has a stray, and it is the stray that the report names. -/
theorem closeParentheses_completes (text : Text) :
    (text.closeParentheses.Balanced ↔ ¬ text.HasStray) ∧
    text.closeParentheses.lexemes =
      text.lexemes ++ List.replicate (text.count '(' - text.count ')') [')'] ∧
    text.closeParentheses.closeParentheses = text.closeParentheses ∧
    (text.closeParentheses = text ↔ text.count '(' ≤ text.count ')') ∧
    (∀ (settings : Settings) (source : Source) (s : Session) (traced : Bool)
      (precision : Operand) (maxDepth : Option Int) (x : Double),
      Outcome.result (s.outcome settings source text traced precision maxDepth) = .ok x →
        text.closeParentheses = text) ∧
    ∀ (settings : Settings) (source : Source) (format : CommandLine.Format) (verbose : Bool)
      (s : Session),
      let evaluated := CommandLine.evaluateLine settings source format verbose s text
      ((∃ error, evaluated.failure = some (.reported error) ∧ error.code = "UNBALANCED".toList) ↔
        (¬ ∀ c ∈ text, isBlank c = true) ∧
          text.closeParentheses.length ≤ settings.maxInputLength ∧ text.HasStray) ∧
      (text.closeParentheses.length ≤ settings.maxInputLength → text.HasStray →
        evaluated.failure = some (.reported .unmatchedClosing) ∧
        (format = .human →
          evaluated.printed = "Error: Unmatched closing parenthesis!\n".toList) ∧
        (format = .json → evaluated.printed =
          ("\x7b\"ok\": false, \"error\": \"Unmatched closing parenthesis!\", " ++
            "\"code\": \"UNBALANCED\"\x7d\n").toList)) := by
  refine ⟨Text.balanced_closeParentheses_iff, Text.lexemes_closeParentheses text,
    Text.closeParentheses_idem text, Text.closeParentheses_eq_self_iff, ?_, ?_⟩
  · intro settings source s traced precision maxDepth x h
    exact (balanced_of_outcome h).closeParentheses_eq
  · intro settings source format verbose s evaluated
    refine ⟨CommandLine.evaluateLine_blames_iff, fun hlength hstray => ?_⟩
    obtain ⟨hfailure, hprinted⟩ : evaluated.failure = some (.reported .unmatchedClosing) ∧
        evaluated.printed = CommandLine.errorText format .unmatchedClosing :=
      CommandLine.evaluateLine_of_hasStray hlength hstray
    refine ⟨hfailure, ?_, ?_⟩
    · rintro rfl
      exact hprinted.trans (by decide +kernel)
    · rintro rfl
      exact hprinted.trans (by decide +kernel)

theorem closeParentheses_completes_stray :
    let accepted : Text := "* (+ 1 2) 3".toList
    let strayed : Text := "+ 1) (- 2".toList
    let evaluated := CommandLine.evaluateLine .usual .lowest .human false (.fresh .usual) strayed
    (Outcome.result ((Session.fresh .usual).outcome .usual .lowest accepted false .absent none) =
        .ok (.ofNat 9) ∧ accepted.closeParentheses = accepted) ∧
      (strayed.count '(' = strayed.count ')' ∧ strayed.HasStray) ∧
      evaluated.failure = some (.reported .unmatchedClosing) ∧
      evaluated.printed = "Error: Unmatched closing parenthesis!\n".toList := by
  intro accepted strayed evaluated
  have haccepted : Outcome.result ((Session.fresh .usual).outcome .usual .lowest accepted false
      .absent none) = .ok (.ofNat 9) := by
    decide +kernel
  have hstray : strayed.HasStray := ⟨"+ 1)".toList, ⟨" (- 2".toList, rfl⟩, by decide⟩
  obtain ⟨-, -, -, -, hself, -⟩ := closeParentheses_completes accepted
  obtain ⟨-, -, -, -, -, hreports⟩ := closeParentheses_completes strayed
  obtain ⟨-, hstrayed⟩ := hreports .usual .lowest .human false (.fresh .usual)
  obtain ⟨hfailure, hprinted, -⟩ := hstrayed (by decide) hstray
  exact ⟨⟨haccepted, hself _ _ _ _ _ _ _ haccepted⟩, ⟨rfl, hstray⟩, hfailure, hprinted rfl⟩

end PolishCalc
