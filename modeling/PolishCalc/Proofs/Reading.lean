import PolishCalc.Proofs.Matching
import PolishCalc.Session.Action

namespace PolishCalc

def Imbalance.error : Imbalance → CalcError
  | closing _ => .unmatchedClosing
  | opening _ => .unmatchedOpening

namespace Text

open Imbalance

theorem scan_append {word : Text} (h : ∀ c ∈ word, isParenthesis c = false) (index : Nat)
    (unclosed : List Nat) (text : Text) :
    scan index unclosed (word ++ text) = scan (index + word.length) unclosed text := by
  induction word generalizing index with
  | nil => rfl
  | cons c word ih =>
    rw [List.cons_append, scan_cons (h c (by simp)), ih fun d hd => h d (by simp [hd]),
      List.length_cons, Nat.add_right_comm, Nat.add_assoc]

theorem Spaced.scan_map_error {words : List Text} {text : Text} (h : Spaced words text)
    {index index' : Nat} {unclosed unclosed' : List Nat}
    (hunclosed : unclosed.length = unclosed'.length) :
    (scan index unclosed text).map error = (scan index' unclosed' words.flatten).map error := by
  induction h generalizing index index' unclosed unclosed' with
  | nil =>
    rcases unclosed with _ | ⟨i, unclosed⟩ <;> rcases unclosed' with _ | ⟨j, unclosed'⟩
    · rfl
    · cases hunclosed
    · cases hunclosed
    · simp [scan, List.getLast?_cons, error]
  | blank hc _ ih =>
    rw [scan_cons (blank_xor_parenthesis hc)]
    exact ih hunclosed
  | @parenthesis c words text hc _ ih =>
    simp only [isParenthesis, Bool.or_eq_true, beq_iff_eq] at hc
    rcases hc with rfl | rfl
    · exact ih (by simp [hunclosed])
    · rcases unclosed with _ | ⟨i, unclosed⟩ <;> rcases unclosed' with _ | ⟨j, unclosed'⟩
      · rfl
      · cases hunclosed
      · cases hunclosed
      · exact ih (by simpa using hunclosed)
  | word hw _ _ ih =>
    rw [scan_append hw.not_parenthesis, List.flatten_cons, scan_append hw.not_parenthesis]
    exact ih hunclosed

theorem imbalance?_map_error (text : Text) :
    text.imbalance?.map error = (imbalance? text.lexemes.flatten).map error :=
  (lexemes_eq_iff.1 rfl).scan_map_error rfl

theorem scan_pointForComma (index : Nat) (unclosed : List Nat) (text : Text) :
    scan index unclosed text.pointForComma = scan index unclosed text := by
  induction text generalizing index unclosed with
  | nil => rfl
  | cons c cs ih =>
    by_cases hcomma : c = ','
    · subst hcomma
      exact (scan_cons rfl).trans (ih (index + 1) unclosed)
    · have hc : pointForComma (c :: cs) = c :: pointForComma cs := by simp [pointForComma, hcomma]
      simp only [hc, scan, ih]

theorem imbalance?_pointForComma (text : Text) : text.pointForComma.imbalance? = text.imbalance? :=
  scan_pointForComma 0 [] text

end Text

def readLexemes (words : List Text) : Except CalcError (List Token) :=
  if words = [] then .error .emptyInput
  else
    match Text.imbalance? words.flatten with
    | some imbalance => .error imbalance.error
    | none => .ok (words.map Token.ofText)

theorem readLine_eq_readLexemes {maxLength : Int} {line : Text}
    (hlength : line.length ≤ maxLength) :
    readLine maxLength line = readLexemes line.pointForComma.lexemes := by
  by_cases hblank : ∀ c ∈ line, isBlank c = true
  · have hnil := Text.lexemes_eq_nil_iff.2 (Text.blank_pointForComma.2 hblank)
    rw [readLine_blank hlength hblank, readLexemes, if_pos hnil]
  obtain ⟨normal, hnormal, hlexemes⟩ := Text.normalize_ok hlength hblank
  have hne : line.pointForComma.lexemes ≠ [] := fun hnil =>
    hblank (Text.blank_pointForComma.1 (Text.lexemes_eq_nil_iff.1 hnil))
  have herror := normal.imbalance?_map_error
  rw [hlexemes] at herror
  rw [readLine, hnormal, readLexemes, if_neg hne]
  dsimp only
  generalize Text.imbalance? line.pointForComma.lexemes.flatten = expected at herror
  cases hfound : normal.imbalance? with
  | none =>
    rw [hfound] at herror
    obtain rfl : expected = none := by simpa using herror.symm
    simp [Token.ofLine, hlexemes]
  | some imbalance =>
    rw [hfound] at herror
    obtain ⟨other, rfl, hother⟩ := Option.map_eq_some_iff.1 herror.symm
    cases imbalance <;> exact congrArg Except.error hother.symm

theorem readLine_imbalance {maxLength : Int} {line : Text} {imbalance : Imbalance}
    (hlength : line.length ≤ maxLength) (h : line.imbalance? = some imbalance) :
    readLine maxLength line = .error imbalance.error := by
  have herror := line.pointForComma.imbalance?_map_error
  rw [Text.imbalance?_pointForComma, h] at herror
  obtain ⟨other, hother, heq⟩ := Option.map_eq_some_iff.1 herror.symm
  have hne : line.pointForComma.lexemes ≠ [] := by
    intro hnil
    rw [hnil] at hother
    cases hother
  rw [readLine_eq_readLexemes hlength, readLexemes, if_neg hne, hother]
  exact congrArg Except.error heq

theorem evaluateLine_of_lexemes {rules : Rules} {first second : Text}
    (hfirst : first.length ≤ rules.maxLength) (hsecond : second.length ≤ rules.maxLength)
    (h : first.pointForComma.lexemes = second.pointForComma.lexemes) (memory : Memory) :
    evaluateLine rules memory first = evaluateLine rules memory second := by
  rw [evaluateLine, evaluateLine, readLine_eq_readLexemes hfirst,
    readLine_eq_readLexemes hsecond, h]

namespace Session

/-- Two lines of the same lexemes, neither of which is too long, come to the same: the same value or
error, answer, reductions and requests, and the same reply. -/
theorem outcome_of_lexemes (settings : Settings) (source : Source) (s : Session)
    (first second : Text) (traced : Bool) (precision : Operand) (maxDepth : Option Int)
    (hfirst : first.length ≤ settings.maxInputLength)
    (hsecond : second.length ≤ settings.maxInputLength)
    (h : first.pointForComma.lexemes = second.pointForComma.lexemes) :
    s.outcome settings source first traced precision maxDepth =
        s.outcome settings source second traced precision maxDepth ∧
      s.perform settings source (.evaluate first traced precision maxDepth) =
        s.perform settings source (.evaluate second traced precision maxDepth) := by
  have houtcome : s.outcome settings source first traced precision maxDepth =
      s.outcome settings source second traced precision maxDepth := by
    rw [outcome, outcome]
    cases s.placesFor precision with
    | error fault => rfl
    | ok digits => exact evaluateLine_of_lexemes hfirst hsecond h (s.memory traced)
  refine ⟨houtcome, ?_⟩
  rw [perform, perform, houtcome]

theorem outcome_of_lexemes_comma :
    let first : Text := "+ 1,5 ( r 1 6 )".toList
    let second : Text := "+\u00a01.5(r\t1 6)".toList
    let outcome := fun line => (fresh .usual).outcome .usual .highest line false .absent none
    (first.length ≤ Settings.usual.maxInputLength ∧
        second.length ≤ Settings.usual.maxInputLength ∧
        first.pointForComma.lexemes = second.pointForComma.lexemes) ∧
      outcome first = outcome second ∧
      (Outcome.memory (outcome second)).requests = [⟨1, 6⟩] ∧
      Outcome.result (outcome second) = .ok (.ofDecimal false 75 (-1)) := by
  intro first second outcome
  have hfirst : first.length ≤ Settings.usual.maxInputLength := by decide
  have hsecond : second.length ≤ Settings.usual.maxInputLength := by decide
  have h : first.pointForComma.lexemes = second.pointForComma.lexemes := by decide
  exact ⟨⟨hfirst, hsecond, h⟩,
    (outcome_of_lexemes .usual .highest (fresh .usual) first second false .absent none hfirst
      hsecond h).1,
    by decide +kernel, by decide +kernel⟩

end Session

end PolishCalc
