import Mathlib.Order.Bounds.Basic
import PolishCalc.Proofs.Balance

namespace PolishCalc.Text

def Overcloses (text : Text) : Prop :=
  text.count '(' < text.count ')'

instance (text : Text) : Decidable text.Overcloses :=
  inferInstanceAs (Decidable (_ < _))

def HasStray (text : Text) : Prop :=
  ∃ front, front <+: text ∧ Overcloses front

def Matches (text : Text) (i j : Nat) : Prop :=
  ∃ front inner tail, text = front ++ '(' :: (inner ++ ')' :: tail) ∧ front.length = i ∧
    i + inner.length + 1 = j ∧ Balanced inner

def unmatched (text : Text) : Set Nat :=
  {i | text[i]? = some '(' ∧ ∀ j, ¬ text.Matches i j}

variable {text front tail : Text} {i : Nat}

theorem Balanced.not_hasStray (h : text.Balanced) : ¬ text.HasStray := by
  rintro ⟨front, hfront, hover⟩
  exact Nat.not_lt.2 (h.1 front hfront) hover

theorem Balanced.overcloses_closing (h : front.Balanced) : Overcloses (front ++ [')']) := by
  have htotal := h.2
  simp only [Overcloses, List.count_append, List.count_singleton]
  simp [htotal]

theorem HasStray.mono (h : front.HasStray) (hinside : front <+: text) : text.HasStray := by
  obtain ⟨start, hstart, hover⟩ := h
  exact ⟨start, hstart.trans hinside, hover⟩

theorem prefix_or_of_prefix_append {start : Text} (h : start <+: front ++ tail) :
    start <+: front ∨ ∃ rest, rest <+: tail ∧ start = front ++ rest := by
  obtain ⟨later, heq⟩ := h
  rcases List.append_eq_append_iff.1 heq with ⟨rest, hrest, -⟩ | ⟨rest, hrest, htail⟩
  · exact .inl ⟨rest, hrest.symm⟩
  · exact .inr ⟨rest, ⟨later, htail.symm⟩, hrest⟩

theorem Balanced.not_hasStray_opening (h : front.Balanced) (htail : ¬ tail.HasStray) :
    ¬ HasStray (front ++ '(' :: tail) := by
  rintro ⟨start, hstart, hover⟩
  rcases prefix_or_of_prefix_append hstart with hinside | ⟨rest, hrest, rfl⟩
  · exact h.not_hasStray ⟨start, hinside, hover⟩
  rcases List.prefix_cons_iff.1 hrest with rfl | ⟨rest, rfl, hinner⟩
  · exact h.not_hasStray ⟨front, List.prefix_rfl, by rwa [List.append_nil] at hover⟩
  · have hle : rest.count ')' ≤ rest.count '(' := Nat.not_lt.1 fun hlt => htail ⟨rest, hinner, hlt⟩
    have htotal := h.2
    simp only [Overcloses, List.count_append, List.count_cons_self,
      List.count_cons_of_ne (show '(' ≠ ')' by decide)] at hover
    omega

section

variable {c : Char} {cs : Text} {index : Nat} {unclosed : List Nat}

theorem scan_opening : Imbalance.scan index unclosed ('(' :: cs) =
    Imbalance.scan (index + 1) (index :: unclosed) cs := by
  simp [Imbalance.scan]

theorem scan_closing {latest : Nat} : Imbalance.scan index (latest :: unclosed) (')' :: cs) =
    Imbalance.scan (index + 1) unclosed cs := by
  simp [Imbalance.scan]

theorem scan_stray : Imbalance.scan index [] (')' :: cs) = some (.closing index) := by
  simp [Imbalance.scan]

theorem scan_cons (h : isParenthesis c = false) : Imbalance.scan index unclosed (c :: cs) =
    Imbalance.scan (index + 1) unclosed cs := by
  have hc : c ≠ '(' ∧ c ≠ ')' := by simpa [isParenthesis] using h
  simp [Imbalance.scan, hc]

end

def StaysOpen (depth : Nat) (text : Text) : Prop :=
  ∀ front, front <+: text → front.count ')' < depth + front.count '('

theorem staysOpen_nil {depth : Nat} : StaysOpen depth [] ↔ 0 < depth := by
  simp [StaysOpen]

theorem staysOpen_opening {depth : Nat} :
    StaysOpen depth ('(' :: text) ↔ 0 < depth ∧ StaysOpen (depth + 1) text := by
  simp only [StaysOpen, forall_prefix_cons, List.count_cons_self, List.count_nil, Nat.add_zero,
    List.count_cons_of_ne (show '(' ≠ ')' by decide)]
  refine and_congr_right fun _ => forall₂_congr fun front _ => ?_
  omega

theorem staysOpen_closing {depth : Nat} :
    StaysOpen (depth + 1) (')' :: text) ↔ StaysOpen depth text := by
  simp only [StaysOpen, forall_prefix_cons, List.count_cons_self, List.count_nil, Nat.add_zero,
    List.count_cons_of_ne (show ')' ≠ '(' by decide)]
  rw [and_iff_right (Nat.succ_pos depth)]
  refine forall₂_congr fun front _ => ?_
  omega

theorem staysOpen_cons {c : Char} (h : isParenthesis c = false) {depth : Nat} :
    StaysOpen depth (c :: text) ↔ StaysOpen depth text := by
  have hc : c ≠ '(' ∧ c ≠ ')' := by simpa [isParenthesis] using h
  simp only [StaysOpen, forall_prefix_cons, List.count_cons_of_ne hc.1, List.count_cons_of_ne hc.2]
  exact and_iff_right_of_imp fun hfronts => hfronts [] List.nil_prefix

theorem staysOpen_one_iff : StaysOpen 1 text ↔ ¬ text.HasStray := by
  simp only [StaysOpen, HasStray, Overcloses, not_exists, not_and]
  refine forall₂_congr fun front _ => ?_
  omega

theorem exists_of_scan_closing {index : Nat} {unclosed : List Nat}
    (h : Imbalance.scan index unclosed text = some (.closing i)) :
    ∃ front tail, text = front ++ ')' :: tail ∧ index + front.length = i ∧
      Closes unclosed.length front := by
  induction text generalizing index unclosed with
  | nil => simp [Imbalance.scan] at h
  | cons c cs ih =>
    by_cases hopen : c = '('
    · subst hopen
      obtain ⟨front, tail, rfl, hindex, hcloses⟩ := ih (scan_opening.symm.trans h)
      exact ⟨'(' :: front, tail, rfl, by rw [List.length_cons]; omega, closes_opening.2 hcloses⟩
    by_cases hclose : c = ')'
    · subst hclose
      cases unclosed with
      | nil =>
        have hi : index = i := by simpa [scan_stray] using h
        exact ⟨[], cs, rfl, hi, rfl⟩
      | cons latest unclosed =>
        obtain ⟨front, tail, rfl, hindex, hcloses⟩ := ih (scan_closing.symm.trans h)
        exact ⟨')' :: front, tail, rfl, by rw [List.length_cons]; omega,
          closes_closing.2 ⟨Nat.succ_pos _, hcloses⟩⟩
    · have hc : isParenthesis c = false := by simp [isParenthesis, hopen, hclose]
      obtain ⟨front, tail, rfl, hindex, hcloses⟩ := ih ((scan_cons hc).symm.trans h)
      exact ⟨c :: front, tail, rfl, by rw [List.length_cons]; omega, (closes_cons hc).2 hcloses⟩

theorem exists_of_scan_opening {index : Nat} {unclosed : List Nat}
    (h : Imbalance.scan index unclosed text = some (.opening i)) :
    unclosed.getLast? = some i ∧ StaysOpen unclosed.length text ∨
      ∃ front tail, text = front ++ '(' :: tail ∧ index + front.length = i ∧
        Closes unclosed.length front ∧ ¬ HasStray tail := by
  induction text generalizing index unclosed with
  | nil =>
    have hlast : unclosed.getLast? = some i := by simpa [Imbalance.scan] using h
    exact .inl ⟨hlast, staysOpen_nil.2 (List.length_pos_of_mem (List.mem_of_getLast? hlast))⟩
  | cons c cs ih =>
    by_cases hopen : c = '('
    · subst hopen
      rcases ih (scan_opening.symm.trans h) with
        ⟨hlast, hstays⟩ | ⟨front, tail, rfl, hindex, hcloses, htail⟩
      · cases unclosed with
        | nil =>
          obtain rfl : index = i := by simpa using hlast
          exact .inr ⟨[], cs, rfl, rfl, rfl, staysOpen_one_iff.1 hstays⟩
        | cons latest unclosed =>
          exact .inl ⟨by simpa [List.getLast?_cons] using hlast,
            staysOpen_opening.2 ⟨Nat.succ_pos _, hstays⟩⟩
      · exact .inr ⟨'(' :: front, tail, rfl, by rw [List.length_cons]; omega,
          closes_opening.2 hcloses, htail⟩
    by_cases hclose : c = ')'
    · subst hclose
      cases unclosed with
      | nil => simp [scan_stray] at h
      | cons latest unclosed =>
        rcases ih (scan_closing.symm.trans h) with
          ⟨hlast, hstays⟩ | ⟨front, tail, rfl, hindex, hcloses, htail⟩
        · exact .inl ⟨by simp [List.getLast?_cons, hlast], staysOpen_closing.2 hstays⟩
        · exact .inr ⟨')' :: front, tail, rfl, by rw [List.length_cons]; omega,
            closes_closing.2 ⟨Nat.succ_pos _, hcloses⟩, htail⟩
    · have hc : isParenthesis c = false := by simp [isParenthesis, hopen, hclose]
      rcases ih ((scan_cons hc).symm.trans h) with
        ⟨hlast, hstays⟩ | ⟨front, tail, rfl, hindex, hcloses, htail⟩
      · exact .inl ⟨hlast, (staysOpen_cons hc).2 hstays⟩
      · exact .inr ⟨c :: front, tail, rfl, by rw [List.length_cons]; omega,
          (closes_cons hc).2 hcloses, htail⟩

theorem exists_of_imbalance?_closing (h : text.imbalance? = some (.closing i)) :
    ∃ front tail, text = front ++ ')' :: tail ∧ front.length = i ∧ Balanced front := by
  obtain ⟨front, tail, rfl, hindex, hcloses⟩ := exists_of_scan_closing h
  exact ⟨front, tail, rfl, by omega, balanced_iff_closes.2 hcloses⟩

theorem exists_of_imbalance?_opening (h : text.imbalance? = some (.opening i)) :
    ∃ front tail, text = front ++ '(' :: tail ∧ front.length = i ∧ Balanced front ∧
      ¬ HasStray tail := by
  rcases exists_of_scan_opening h with ⟨hlast, -⟩ | ⟨front, tail, rfl, hindex, hcloses, htail⟩
  · cases hlast
  · exact ⟨front, tail, rfl, by omega, balanced_iff_closes.2 hcloses, htail⟩

theorem HasStray.imbalance?_eq (h : text.HasStray) : ∃ i, text.imbalance? = some (.closing i) := by
  match hfound : text.imbalance? with
  | none => exact absurd h (imbalance?_eq_none_iff.1 hfound).not_hasStray
  | some (.closing i) => exact ⟨i, rfl⟩
  | some (.opening i) =>
    obtain ⟨front, tail, rfl, -, hfront, htail⟩ := exists_of_imbalance?_opening hfound
    exact absurd h (hfront.not_hasStray_opening htail)

theorem hasStray_iff :
    text.HasStray ↔ ∃ front tail, text = front ++ ')' :: tail ∧ Balanced front := by
  constructor
  · intro h
    obtain ⟨i, hfound⟩ := h.imbalance?_eq
    obtain ⟨front, tail, htext, -, hfront⟩ := exists_of_imbalance?_closing hfound
    exact ⟨front, tail, htext, hfront⟩
  · rintro ⟨front, tail, rfl, hfront⟩
    exact ⟨front ++ [')'], by simp, hfront.overcloses_closing⟩

theorem exists_matches_iff :
    (∃ j, Matches (front ++ '(' :: tail) front.length j) ↔ tail.HasStray := by
  rw [hasStray_iff]
  constructor
  · rintro ⟨j, front', inner, rest, heq, hlength, -, hinner⟩
    obtain ⟨-, htail⟩ := List.append_inj heq hlength.symm
    exact ⟨inner, rest, (List.cons.inj htail).2, hinner⟩
  · rintro ⟨inner, rest, rfl, hinner⟩
    exact ⟨_, front, inner, rest, rfl, rfl, rfl, hinner⟩

theorem mem_unmatched_iff : front.length ∈ unmatched (front ++ '(' :: tail) ↔ ¬ tail.HasStray := by
  rw [← exists_matches_iff, not_exists]
  exact and_iff_right (by simp)

theorem exists_split_of_getElem? {c : Char} (h : text[i]? = some c) :
    ∃ front tail, text = front ++ c :: tail ∧ front.length = i := by
  obtain ⟨hi, rfl⟩ := List.getElem?_eq_some_iff.1 h
  refine ⟨text.take i, text.drop (i + 1), ?_, by simp [Nat.le_of_lt hi]⟩
  rw [List.getElem_cons_drop, List.take_append_drop]

theorem Balanced.hasStray_inside {rest : Text} (h : Balanced (front ++ '(' :: rest))
    (tail : Text) : HasStray (rest ++ tail) := by
  have hle := h.1 front (List.prefix_append _ _)
  have htotal := h.2
  simp only [List.count_append, List.count_cons_self,
    List.count_cons_of_ne (show '(' ≠ ')' by decide)] at htotal
  exact ⟨rest, List.prefix_append _ _, by rw [Overcloses]; omega⟩

theorem Balanced.le_of_mem_unmatched (h : front.Balanced)
    (hi : i ∈ unmatched (front ++ tail)) : front.length ≤ i := by
  by_contra hlt
  have hget : front[i]? = some '(' := by
    rw [← hi.1, List.getElem?_append_left (Nat.not_le.1 hlt)]
  obtain ⟨inside, rest, rfl, rfl⟩ := exists_split_of_getElem? hget
  rw [List.append_assoc, List.cons_append] at hi
  exact mem_unmatched_iff.1 hi (h.hasStray_inside tail)

theorem Balanced.isLeast_unmatched (h : front.Balanced) (htail : ¬ tail.HasStray) :
    IsLeast (unmatched (front ++ '(' :: tail)) front.length :=
  ⟨mem_unmatched_iff.2 htail, fun _ => h.le_of_mem_unmatched⟩

theorem Balanced.isLeast_overcloses (h : front.Balanced) (tail : Text) :
    IsLeast {n | Overcloses ((front ++ ')' :: tail).take n)} (front.length + 1) := by
  constructor
  · have htake : (front ++ ')' :: tail).take (front.length + 1) = front ++ [')'] := by
      rw [List.take_length_add_append]
      rfl
    exact (congrArg Overcloses htake).mpr h.overcloses_closing
  · intro n hn
    by_contra hlt
    rw [Set.mem_ofPred_eq, List.take_append_of_le_length (by omega)] at hn
    exact h.not_hasStray ⟨_, List.take_prefix n front, hn⟩

/-- A text is found without fault if and only if it is balanced. Where a prefix closes more than it
opens, the last character of the shortest such prefix is blamed, and otherwise the first opening
parenthesis that matches none. -/
theorem imbalance?_blames (text : Text) :
    (text.imbalance? = none ↔ text.Balanced) ∧
    (∀ i, text.imbalance? = some (.closing i) ↔
      text[i]? = some ')' ∧ IsLeast {n | Overcloses (text.take n)} (i + 1)) ∧
    ∀ i, text.imbalance? = some (.opening i) ↔
      ¬ text.HasStray ∧ IsLeast text.unmatched i := by
  have hclosing {i} (h : text.imbalance? = some (.closing i)) :
      text[i]? = some ')' ∧ IsLeast {n | Overcloses (text.take n)} (i + 1) := by
    obtain ⟨front, tail, rfl, rfl, hfront⟩ := exists_of_imbalance?_closing h
    exact ⟨by simp, hfront.isLeast_overcloses tail⟩
  have hopening {i} (h : text.imbalance? = some (.opening i)) :
      ¬ text.HasStray ∧ IsLeast text.unmatched i := by
    obtain ⟨front, tail, rfl, rfl, hfront, htail⟩ := exists_of_imbalance?_opening h
    exact ⟨hfront.not_hasStray_opening htail, hfront.isLeast_unmatched htail⟩
  refine ⟨imbalance?_eq_none_iff, fun i => ⟨hclosing, ?_⟩, fun i => ⟨hopening, ?_⟩⟩
  · rintro ⟨-, hleast⟩
    have hstray : text.HasStray := ⟨_, List.take_prefix (i + 1) text, hleast.1⟩
    match hfound : text.imbalance? with
    | none => exact absurd hstray (imbalance?_eq_none_iff.1 hfound).not_hasStray
    | some (.closing k) => rw [Nat.succ.inj ((hclosing hfound).2.unique hleast)]
    | some (.opening k) => exact absurd hstray (hopening hfound).1
  · rintro ⟨hstray, hleast⟩
    match hfound : text.imbalance? with
    | none =>
      have hmem : i ∈ unmatched (text ++ []) := by
        rw [List.append_nil]
        exact hleast.1
      have hle := (imbalance?_eq_none_iff.1 hfound).le_of_mem_unmatched hmem
      have hlt := (List.getElem?_eq_some_iff.1 hleast.1.1).1
      omega
    | some (.closing k) =>
      exact absurd ⟨_, List.take_prefix (k + 1) text, (hclosing hfound).2.1⟩ hstray
    | some (.opening k) => rw [(hopening hfound).2.unique hleast]

end PolishCalc.Text
