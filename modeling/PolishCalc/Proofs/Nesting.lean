import PolishCalc.Proofs.Matching
import PolishCalc.Proofs.Parentheses

namespace PolishCalc

namespace Text

variable {text front inner tail : Text} {i j k : Nat}

theorem Balanced.append (h : front.Balanced) (h' : tail.Balanced) : Balanced (front ++ tail) := by
  constructor
  · intro start hstart
    rcases prefix_or_of_prefix_append hstart with hinside | ⟨rest, hrest, rfl⟩
    · exact h.1 start hinside
    · rw [List.count_append, List.count_append, h.2]
      exact Nat.add_le_add_left (h'.1 rest hrest) _
  · rw [List.count_append, List.count_append, h.2, h'.2]

theorem balanced_singleton {c : Char} (h : isParenthesis c = false) : Balanced [c] :=
  balanced_iff_closes.2 ((closes_cons h).2 (closes_nil.2 rfl))

theorem Balanced.wrap (h : inner.Balanced) : Balanced ('(' :: (inner ++ [')'])) := by
  rw [balanced_iff_closes, closes_opening, closes_iff]
  constructor
  · intro start hstart
    rcases prefix_or_of_prefix_append hstart with hinside | ⟨rest, hrest, rfl⟩
    · exact Nat.le_add_left_of_le (h.1 start hinside)
    · have hle := hrest.sublist.count_le ')'
      have hone : [')'].count ')' = 1 := rfl
      rw [List.count_append, List.count_append, h.2]
      omega
  · rw [List.count_append, List.count_append, h.2]
    exact Nat.add_comm _ _

theorem Matches.not_lt (h : text.Matches i j) (h' : text.Matches i k) : ¬ j < k := by
  obtain ⟨front, inner, tail, rfl, rfl, rfl, hinner⟩ := h
  obtain ⟨front', inner', tail', heq, hlength, rfl, hinner'⟩ := h'
  obtain ⟨-, hrest⟩ := List.append_inj heq hlength.symm
  rcases List.append_eq_append_iff.1 (List.cons.inj hrest).2 with
    ⟨more, rfl, htail⟩ | ⟨more, rfl, -⟩
  · cases more with
    | nil => simp
    | cons c more =>
      -- What is balanced cannot go on past its match.
      obtain ⟨rfl, -⟩ := List.cons.inj htail
      have hstart : inner ++ [')'] <+: inner ++ ')' :: more := ⟨more, by simp⟩
      exact absurd ⟨_, hstart, hinner.overcloses_closing⟩ hinner'.not_hasStray
  · rw [List.length_append]
    omega

theorem Matches.unique (h : text.Matches i j) (h' : text.Matches i k) : j = k :=
  Nat.le_antisymm (Nat.not_lt.1 (h'.not_lt h)) (Nat.not_lt.1 (h.not_lt h'))

theorem Matches.surround (h : inner.Matches i j) (front tail : Text) :
    (front ++ inner ++ tail).Matches (front.length + i) (front.length + j) := by
  obtain ⟨before, between, after, rfl, rfl, rfl, hbetween⟩ := h
  exact ⟨front ++ before, between, after ++ tail, by simp, by simp, by omega, hbetween⟩

theorem Balanced.exists_matches (h : text.Balanced) (hi : text[i]? = some '(') :
    ∃ j, j < text.length ∧ text.Matches i j := by
  obtain ⟨front, tail, rfl, rfl⟩ := exists_split_of_getElem? hi
  have hstray := h.hasStray_inside []
  rw [List.append_nil] at hstray
  obtain ⟨j, hj⟩ := exists_matches_iff.2 hstray
  refine ⟨j, ?_, hj⟩
  obtain ⟨before, between, after, heq, hbefore, rfl, -⟩ := hj
  rw [heq]
  simp only [List.length_append, List.length_cons]
  omega

def openAt (text : Text) (p : Nat) : Set Nat :=
  {i | i < p ∧ text[i]? = some '(' ∧ ∀ j < p, ¬ text.Matches i j}

theorem not_mem_openAt_of_balanced (hfront : front.Balanced) (tail : Text) (i : Nat) :
    i ∉ (front ++ tail).openAt front.length := by
  rintro ⟨hlt, hget, hopen⟩
  rw [List.getElem?_append_left hlt] at hget
  obtain ⟨j, hj, hmatches⟩ := hfront.exists_matches hget
  have hwhole := hmatches.surround [] tail
  simp only [List.nil_append, List.length_nil, Nat.zero_add] at hwhole
  exact hopen j hj hwhole

theorem isGreatest_openAt (hinner : inner.Balanced)
    (hmatches : (front ++ '(' :: (inner ++ tail)).Matches front.length j)
    (hj : front.length + inner.length < j) :
    IsGreatest ((front ++ '(' :: (inner ++ tail)).openAt (front.length + 1 + inner.length))
      front.length := by
  refine ⟨⟨by omega, by simp, fun k hk hmatch => ?_⟩, ?_⟩
  · have := hmatches.unique hmatch
    omega
  · rintro i ⟨hlt, hget, hopen⟩
    by_contra hnot
    obtain ⟨k, rfl⟩ := Nat.exists_eq_add_of_lt (Nat.not_le.1 hnot)
    have hk : k < inner.length := by omega
    have hsplit : front ++ '(' :: (inner ++ tail) = (front ++ ['(']) ++ inner ++ tail := by simp
    rw [hsplit] at hget hopen
    have hindex : front.length + k + 1 = (front ++ ['(']).length + k := by
      rw [List.length_append, List.length_singleton]
      omega
    rw [hindex, List.append_assoc, List.getElem?_append_right (Nat.le_add_right _ _),
      Nat.add_sub_cancel_left, List.getElem?_append_left hk] at hget
    obtain ⟨l, hl, hinside⟩ := hinner.exists_matches hget
    refine hopen _ ?_ (hindex ▸ hinside.surround (front ++ ['(']) tail)
    rw [List.length_append, List.length_singleton]
    omega

theorem exists_innermost (text : Text) (h : text.count ')' < text.count '(') :
    ∃ front inner : Text, text = front ++ '(' :: inner ∧ inner.Balanced := by
  induction hlength : text.length using Nat.strongRecOn generalizing text with
  | ind n ih =>
    subst hlength
    rcases List.eq_nil_or_concat text with rfl | ⟨start, c, rfl⟩
    · cases h
    rw [List.concat_eq_append] at h ih ⊢
    by_cases hopen : c = '('
    · subst hopen
      exact ⟨start, [], rfl, balanced_iff_closes.2 (closes_nil.2 rfl)⟩
    by_cases hclose : c = ')'
    · subst hclose
      simp only [List.count_append, List.count_cons_self, List.count_nil,
        List.count_cons_of_ne (show ')' ≠ '(' by decide)] at h
      -- The last parenthesis closes the innermost one, so the one around that is wanted.
      obtain ⟨around, inner, rfl, hinner⟩ := ih start.length (by simp) start (by omega) rfl
      have hequal := hinner.2
      simp only [List.count_append, List.count_cons_self,
        List.count_cons_of_ne (show '(' ≠ ')' by decide)] at h
      obtain ⟨front, between, rfl, hbetween⟩ := ih around.length (by simp) around (by omega) rfl
      exact ⟨front, between ++ '(' :: (inner ++ [')']), by simp, hbetween.append hinner.wrap⟩
    · have hc : isParenthesis c = false := by simp [isParenthesis, hopen, hclose]
      have hcounts : start.count ')' < start.count '(' := by
        simpa [List.count_append, List.count_singleton, hopen, hclose] using h
      obtain ⟨front, inner, rfl, hinner⟩ := ih start.length (by simp) start hcounts rfl
      exact ⟨front, inner ++ [c], by simp, hinner.append (balanced_singleton hc)⟩

/-- The end of the level at `p`: the end of the text if nothing is open at `p`, else the parenthesis
that closes the innermost one. -/
def EndsLevel (text : Text) (p q : Nat) : Prop :=
  (q = text.length ∧ ∀ i, i ∉ text.openAt p) ∨
    ∃ i, IsGreatest (text.openAt p) i ∧ text.Matches i q

theorem endsLevel_closing (h : front.count ')' < front.count '(') (hinner : inner.Balanced)
    (tail : Text) :
    EndsLevel (front ++ inner ++ ')' :: tail) front.length (front.length + inner.length) := by
  obtain ⟨before, between, rfl, hbetween⟩ := exists_innermost front h
  have hmatches : (before ++ '(' :: (between ++ (inner ++ ')' :: tail))).Matches before.length
      (before.length + (between ++ inner).length + 1) :=
    ⟨before, between ++ inner, tail, by simp, rfl, rfl, hbetween.append hinner⟩
  have hgreatest := isGreatest_openAt hbetween hmatches
    (by rw [List.length_append]; omega)
  have htext : before ++ '(' :: between ++ inner ++ ')' :: tail =
      before ++ '(' :: (between ++ (inner ++ ')' :: tail)) := by simp
  have hp : (before ++ '(' :: between).length = before.length + 1 + between.length := by
    rw [List.length_append, List.length_cons]
    omega
  have hq : (before ++ '(' :: between).length + inner.length =
      before.length + (between ++ inner).length + 1 := by
    rw [hp, List.length_append]
    omega
  rw [htext, hq, hp]
  exact .inr ⟨before.length, hgreatest, hmatches⟩

theorem Balanced.endsLevel (h : Balanced (front ++ inner ++ tail)) (hinner : inner.Balanced)
    (htail : ∀ c ∈ tail.head?, c = ')') :
    EndsLevel (front ++ inner ++ tail) front.length (front.length + inner.length) := by
  have hequal := hinner.2
  cases tail with
  | nil =>
    have htotal := h.2
    rw [List.append_nil] at h htotal ⊢
    rw [List.count_append, List.count_append] at htotal
    have hfront : front.Balanced :=
      ⟨fun start hstart => h.1 start (hstart.trans (List.prefix_append _ _)), by omega⟩
    exact .inl ⟨List.length_append.symm, not_mem_openAt_of_balanced hfront inner⟩
  | cons c tail =>
    obtain rfl : c = ')' := htail c rfl
    have hle := h.1 (front ++ inner ++ [')']) ⟨tail, by simp⟩
    simp only [List.count_append, List.count_cons_self, List.count_nil,
      List.count_cons_of_ne (show ')' ≠ '(' by decide)] at hle
    exact endsLevel_closing (by omega) hinner tail

end Text

namespace Token

inductive Nested : List Token → Prop
  | nil : Nested []
  | operator (op : Operator) {rest : List Token} : Nested rest → Nested (operator op :: rest)
  | operand (text : Text) {rest : List Token} : Nested rest → Nested (operand text :: rest)
  | group {inner rest : List Token} : Nested inner → Nested rest →
      Nested (opening :: (inner ++ closing :: rest))

theorem Nested.balanced_outline {tokens : List Token} (h : Nested tokens) :
    (outline tokens).Balanced := by
  induction h with
  | nil => exact Text.balanced_iff_closes.2 (Text.closes_nil.2 rfl)
  | operator op _ ih => exact (Text.balanced_singleton rfl).append ih
  | operand text _ ih => exact (Text.balanced_singleton rfl).append ih
  | @group inner rest _ _ ihInner ihRest =>
    have houtline : outline (opening :: (inner ++ closing :: rest)) =
        '(' :: (outline inner ++ [')']) ++ outline rest := by
      simp [outline]
    rw [houtline]
    exact ihInner.wrap.append ihRest

theorem nested_of_closes (tokens : List Token) :
    (Text.Closes 0 (outline tokens) → Nested tokens) ∧
      ∀ depth, Text.Closes (depth + 1) (outline tokens) → ∃ inner rest,
        tokens = inner ++ closing :: rest ∧ Nested inner ∧ Text.Closes depth (outline rest) := by
  induction hlength : tokens.length using Nat.strongRecOn generalizing tokens with
  | ind n ih =>
    subst hlength
    cases tokens with
    | nil => exact ⟨fun _ => .nil, fun _ h => absurd (closes_outline_nil.1 h) (Nat.succ_ne_zero _)⟩
    | cons token tokens =>
      obtain ⟨hall, hfirst⟩ := ih tokens.length (by simp) tokens rfl
      cases token with
      | operator op =>
        refine ⟨fun h => .operator op (hall (closes_outline_operator.1 h)), fun depth h => ?_⟩
        obtain ⟨inner, rest, rfl, hinner, hrest⟩ := hfirst depth (closes_outline_operator.1 h)
        exact ⟨_, rest, rfl, .operator op hinner, hrest⟩
      | operand text =>
        refine ⟨fun h => .operand text (hall (closes_outline_operand.1 h)), fun depth h => ?_⟩
        obtain ⟨inner, rest, rfl, hinner, hrest⟩ := hfirst depth (closes_outline_operand.1 h)
        exact ⟨_, rest, rfl, .operand text hinner, hrest⟩
      | closing =>
        refine ⟨fun h => absurd (closes_outline_closing.1 h).1 (Nat.lt_irrefl 0), fun depth h => ?_⟩
        exact ⟨[], tokens, rfl, .nil, (closes_outline_closing.1 h).2⟩
      | opening =>
        refine ⟨fun h => ?_, fun depth h => ?_⟩
        · obtain ⟨inner, rest, rfl, hinner, hrest⟩ := hfirst 0 (closes_outline_opening.1 h)
          have hshort : rest.length < (opening :: (inner ++ closing :: rest)).length := by
            simp only [List.length_cons, List.length_append]
            omega
          exact .group hinner ((ih _ hshort rest rfl).1 hrest)
        · obtain ⟨inner, rest, rfl, hinner, hrest⟩ := hfirst (depth + 1) (closes_outline_opening.1 h)
          have hshort : rest.length < (opening :: (inner ++ closing :: rest)).length := by
            simp only [List.length_cons, List.length_append]
            omega
          obtain ⟨next, later, rfl, hnext, hlater⟩ := (ih _ hshort rest rfl).2 depth hrest
          exact ⟨opening :: (inner ++ closing :: next), later, by simp, .group hinner hnext, hlater⟩

theorem Balanced.nested {tokens : List Token} (h : Balanced tokens) : Nested tokens :=
  (nested_of_closes tokens).1 (balanced_iff_closes.1 h)

end Token

end PolishCalc
