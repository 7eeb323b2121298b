import PolishCalc.Proofs.Recency

namespace PolishCalc.History

def Move.shift (count position : Nat) (m : Move) : Nat :=
  match m.direction with
  | .back => position - 1
  | .forward => min count (position + 1)

theorem Move.shift_back (count position : Nat) (draft : Option Text) :
    shift count position ⟨.back, draft⟩ = position - 1 := rfl

theorem Move.shift_forward (count position : Nat) (draft : Option Text) :
    shift count position ⟨.forward, draft⟩ = min count (position + 1) := rfl

theorem shift_le {count position : Nat} (h : position ≤ count) (m : Move) :
    m.shift count position ≤ count := by
  unfold Move.shift
  split <;> omega

theorem foldl_shift_le {count position : Nat} (h : position ≤ count) (moves : List Move) :
    moves.foldl (Move.shift count) position ≤ count := by
  induction moves generalizing position with
  | nil => exact h
  | cons m moves ih => exact ih (shift_le h m)

theorem foldl_shift_forward {count position : Nat} (h : position ≤ count)
    (drafts : List (Option Text)) :
    (drafts.map (Move.mk .forward)).foldl (Move.shift count) position =
      min count (position + drafts.length) := by
  induction drafts generalizing position with
  | nil => simp [h]
  | cons draft drafts ih =>
    rw [List.map_cons, List.foldl_cons, ih (shift_le h _), Move.shift_forward, List.length_cons]
    omega

theorem foldl_shift_back (count position : Nat) (drafts : List (Option Text)) :
    (drafts.map (Move.mk .back)).foldl (Move.shift count) position =
      position - drafts.length := by
  induction drafts generalizing position with
  | nil => rfl
  | cons draft drafts ih =>
    rw [List.map_cons, List.foldl_cons, ih, Move.shift_back, List.length_cons]
    omega

def Step.follow (moves : List Move) : Step → List Move
  | .add _ => []
  | .move m => moves ++ [m]
  | .resetCursor => []
  | .clear => []

def episode (steps : List Step) : List Move :=
  steps.foldl Step.follow []

theorem foldl_follow_move (start moves : List Move) :
    (moves.map Step.move).foldl Step.follow start = start ++ moves := by
  induction moves generalizing start with
  | nil => simp
  | cons m moves ih =>
    rw [List.map_cons, List.foldl_cons, ih, Step.follow, List.append_assoc, List.singleton_append]

def kept (moves : List Move) : Text :=
  (moves.head?.bind Move.draft).getD []

def place (count : Nat) (moves : List Move) : Option Browsing :=
  if moves = [] then none
  else some ⟨moves.tail.foldl (Move.shift count) (count - 1), kept moves⟩

theorem place_cons (count : Nat) (first : Move) (later : List Move) :
    place count (first :: later) =
      some ⟨later.foldl (Move.shift count) (count - 1), first.draft.getD []⟩ := rfl

theorem exists_place_append {count : Nat} (hcount : 0 < count) (moves : List Move)
    (direction : Direction) {drafts : List (Option Text)} (h : count ≤ drafts.length) :
    ∃ (start : Nat) (rest : List (Option Text)),
      place count (moves ++ drafts.map (Move.mk direction)) =
        some ⟨(rest.map (Move.mk direction)).foldl (Move.shift count) start,
          kept (moves ++ drafts.map (Move.mk direction))⟩ ∧
      start ≤ count ∧ start ≤ rest.length ∧ count ≤ rest.length + 1 := by
  cases moves with
  | nil =>
    -- The first of them starts the episode, so that only the rest go on.
    obtain ⟨draft, rest, rfl⟩ := List.exists_cons_of_length_pos (Nat.lt_of_lt_of_le hcount h)
    rw [List.length_cons] at h
    exact ⟨count - 1, rest, rfl, by omega, by omega, h⟩
  | cons first later =>
    have hle := foldl_shift_le (Nat.sub_le count 1) later
    refine ⟨later.foldl (Move.shift count) (count - 1), drafts, ?_, hle, by omega, by omega⟩
    rw [List.cons_append, place_cons, List.foldl_append]
    rfl

section

variable {h : History} {b : Browsing}

theorem shown_of_lt (hb : b.cursor < h.entries.length) :
    h.entries[b.cursor]? = some (h.shown b) := by
  rw [shown, List.getElem?_eq_getElem hb, Option.getD_some]

theorem shown_of_le (hb : h.entries.length ≤ b.cursor) : h.shown b = b.draft := by
  rw [shown, List.getElem?_eq_none hb, Option.getD_none]

theorem browse_of_none (hb : h.browsing = none) (m : Move) :
    h.browse m = h.moveTo ⟨h.entries.length - 1, m.draft.getD []⟩ := by
  obtain ⟨direction, draft⟩ := m
  cases direction <;> simp only [browse, previous, next, hb, startBrowsing]

theorem browse_of_some (hb : h.browsing = some b) (m : Move) :
    h.browse m = h.moveTo { b with cursor := m.shift h.entries.length b.cursor } := by
  obtain ⟨direction, draft⟩ := m
  cases direction <;> simp only [browse, previous, next, hb, Move.shift]

end

structure Follows (moves : List Move) (h : History) : Prop where
  browsing_eq : h.browsing = place h.entries.length moves
  ne_nil : h.entries ≠ []

namespace Follows

variable {h : History} {moves : List Move}

theorem new (sentinel : Text) : (History.new sentinel).Follows [] :=
  ⟨rfl, List.cons_ne_nil _ _⟩

theorem count_pos (hh : h.Follows moves) : 0 < h.entries.length :=
  List.length_pos_iff.2 hh.ne_nil

theorem cursor_le (hh : h.Follows moves) {b : Browsing} (hb : h.browsing = some b) :
    b.cursor ≤ h.entries.length := by
  rw [hh.browsing_eq] at hb
  cases moves with
  | nil => cases hb
  | cons first later =>
    cases hb
    exact foldl_shift_le (Nat.sub_le _ _) later

theorem browse (hh : h.Follows moves) (m : Move) : (h.browse m).2.Follows (moves ++ [m]) where
  browsing_eq := by
    have hb := hh.browsing_eq
    rw [entries_browse]
    cases moves with
    | nil =>
      rw [browse_of_none hb]
      rfl
    | cons first later =>
      rw [browse_of_some hb, List.cons_append, place_cons, List.foldl_concat]
      rfl
  ne_nil := by
    rw [entries_browse]
    exact hh.ne_nil

theorem perform (hh : h.Follows moves) (step : Step) :
    (h.perform step).2.Follows (step.follow moves) := by
  cases step with
  | add text =>
    change (h.add text).Follows []
    unfold add
    split
    · exact ⟨rfl, hh.ne_nil⟩
    · exact ⟨rfl, by simp⟩
  | move m => exact hh.browse m
  | resetCursor => exact ⟨rfl, hh.ne_nil⟩
  | clear => exact .new h.sentinel

theorem after (hh : h.Follows moves) (steps : List Step) :
    (h.after steps).Follows (steps.foldl Step.follow moves) := by
  induction steps generalizing h moves with
  | nil => exact hh
  | cons step steps ih => exact ih (hh.perform step)

end Follows

end PolishCalc.History

namespace PolishCalc

open History

/-- A history whose cursor and draft are kept apart. -/
structure Navigator where
  sentinel : Text
  entries : List Text
  cursor : Option Nat
  draft : Option Text

namespace Navigator

def new (sentinel : Text) : Navigator :=
  ⟨sentinel, [sentinel], none, none⟩

def ofHistory (h : History) : Navigator :=
  ⟨h.sentinel, h.entries, h.cursor, h.draft⟩

def resetCursor (n : Navigator) : Navigator :=
  { n with cursor := none, draft := none }

def add (n : Navigator) (text : Text) : Navigator :=
  let n := n.resetCursor
  if n.entries.getLast? = some text then n
  else if text ∈ n.entries then { n with entries := n.entries.erase text ++ [text] }
  else { n with entries := n.entries ++ [text] }

def keep (n : Navigator) (draft : Option Text) : Navigator :=
  if n.draft = none then { n with draft := some (draft.getD []) } else n

def goTo (n : Navigator) (index : Nat) : Option (Text × Navigator) :=
  n.entries[index]?.map fun entry => (entry, { n with cursor := some index })

def browse (n : Navigator) (m : Move) : Option (Text × Navigator) :=
  let n := n.keep m.draft
  match n.cursor with
  | none => n.goTo (n.entries.length - 1)
  | some index =>
    match m.direction with
    | .back => if 0 < index then n.goTo (index - 1) else n.goTo index
    | .forward =>
      if n.entries.length - 1 ≤ index then
        n.draft.map fun draft => (draft, { n with cursor := some n.entries.length })
      else n.goTo (index + 1)

def perform (n : Navigator) : Step → Option (Option Text × Navigator)
  | .add text => some (none, n.add text)
  | .move m => (n.browse m).map fun shown => (some shown.1, shown.2)
  | .resetCursor => some (none, n.resetCursor)
  | .clear => some (none, new n.sentinel)

def after (n : Navigator) (steps : List Step) : Option Navigator :=
  steps.foldlM (fun n step => (n.perform step).map Prod.snd) n

variable {h : History} {b : Browsing} {moves : List Move}

theorem add_ofHistory (h : History) (text : Text) :
    (ofHistory h).add text = ofHistory (h.add text) := by
  have hentries : (ofHistory h).resetCursor.entries = h.entries := rfl
  unfold add History.add
  dsimp only
  rw [hentries]
  split
  · rfl
  split
  · rfl
  · rename_i hmem
    rw [List.erase_of_not_mem hmem]
    rfl

theorem goTo_moveTo (hb : b.cursor < h.entries.length) (cursor : Option Nat) :
    goTo ⟨h.sentinel, h.entries, cursor, some b.draft⟩ b.cursor =
      some ((h.moveTo b).1, ofHistory (h.moveTo b).2) := by
  rw [goTo]
  dsimp only
  rw [shown_of_lt hb]
  rfl

theorem browse_idle (hh : h.Follows moves) (hb : h.browsing = none) (m : Move) :
    (ofHistory h).browse m = some ((h.browse m).1, ofHistory (h.browse m).2) := by
  have hof : ofHistory h = ⟨h.sentinel, h.entries, none, none⟩ := by
    rw [ofHistory, History.cursor, History.draft, hb]
    rfl
  have hcount := hh.count_pos
  rw [browse_of_none hb, hof]
  exact goTo_moveTo (b := ⟨h.entries.length - 1, m.draft.getD []⟩) (by dsimp only; omega) none

theorem browse_on (hh : h.Follows moves) (hb : h.browsing = some b) (m : Move) :
    (ofHistory h).browse m = some ((h.browse m).1, ofHistory (h.browse m).2) := by
  have hof : ofHistory h = ⟨h.sentinel, h.entries, some b.cursor, some b.draft⟩ := by
    rw [ofHistory, History.cursor, History.draft, hb]
    rfl
  have hcount := hh.count_pos
  have hle := hh.cursor_le hb
  have hread (cursor : Nat) (hlt : cursor < h.entries.length) :
      goTo ⟨h.sentinel, h.entries, some b.cursor, some b.draft⟩ cursor =
        some ((h.moveTo { b with cursor := cursor }).1,
          ofHistory (h.moveTo { b with cursor := cursor }).2) :=
    goTo_moveTo (b := { b with cursor := cursor }) hlt (some b.cursor)
  obtain ⟨direction, draft⟩ := m
  rw [browse_of_some hb, hof]
  cases direction with
  | back =>
    rw [Move.shift_back]
    change (if 0 < b.cursor then goTo _ (b.cursor - 1) else goTo _ b.cursor) = _
    split
    · exact hread (b.cursor - 1) (by omega)
    · have hzero : b.cursor - 1 = b.cursor := by omega
      rw [hzero]
      exact hread b.cursor (by omega)
  | forward =>
    rw [Move.shift_forward]
    change (if h.entries.length - 1 ≤ b.cursor then some (b.draft, _)
      else goTo _ (b.cursor + 1)) = _
    split
    · have hlast : min h.entries.length (b.cursor + 1) = h.entries.length := by omega
      have hshown : (h.moveTo { b with cursor := h.entries.length }).1 = b.draft :=
        shown_of_le (Nat.le_refl _)
      rw [hlast, hshown]
      rfl
    · have hnext : min h.entries.length (b.cursor + 1) = b.cursor + 1 := by omega
      rw [hnext]
      exact hread (b.cursor + 1) (by omega)

theorem perform_ofHistory (hh : h.Follows moves) (step : Step) :
    (ofHistory h).perform step = some ((h.perform step).1, ofHistory (h.perform step).2) := by
  cases step with
  | add text => exact congrArg (fun n => some (none, n)) (add_ofHistory h text)
  | move m =>
    have hbrowse : (ofHistory h).browse m = some ((h.browse m).1, ofHistory (h.browse m).2) := by
      cases hb : h.browsing with
      | none => exact browse_idle hh hb m
      | some b => exact browse_on hh hb m
    exact congrArg (Option.map fun shown => (some shown.1, shown.2)) hbrowse
  | resetCursor => rfl
  | clear => rfl

theorem after_ofHistory (hh : h.Follows moves) (steps : List Step) :
    (ofHistory h).after steps = some (ofHistory (h.after steps)) := by
  induction steps generalizing h moves with
  | nil => rfl
  | cons step steps ih =>
    rw [after, List.foldlM_cons, perform_ofHistory hh step]
    exact ih (hh.perform step)

end Navigator

namespace History

theorem cursor_eq_none_iff {h : History} : h.cursor = none ↔ h.draft = none := by
  rw [cursor, draft, Option.map_eq_none_iff, Option.map_eq_none_iff]

theorem entries_after_moves (h : History) (moves : List Move) :
    (h.after (moves.map .move)).entries = h.entries := by
  induction moves generalizing h with
  | nil => rfl
  | cons m moves ih => exact (ih _).trans (h.entries_browse m)

namespace Follows

variable {h : History} {moves : List Move}

theorem shown_browse (hh : h.Follows moves) (m : Move) :
    ∃ b, (h.browse m).2.browsing = some b ∧
      (h.entries ++ [b.draft])[b.cursor]? = some (h.browse m).1 := by
  obtain ⟨b, hb⟩ := h.exists_browse_eq m
  have hle : b.cursor ≤ h.entries.length := by
    have hm := hh.browse m
    rw [hb] at hm
    exact hm.cursor_le rfl
  rw [hb]
  refine ⟨b, rfl, ?_⟩
  change _ = some (h.shown b)
  rcases Nat.lt_or_eq_of_le hle with hlt | heq
  · rw [List.getElem?_append_left hlt, shown_of_lt hlt]
  · rw [heq, List.getElem?_concat_length, shown_of_le (Nat.le_of_eq heq.symm)]

theorem browsing_after_moves (hh : h.Follows moves) (more : List Move) :
    (h.after (more.map .move)).browsing = place h.entries.length (moves ++ more) := by
  rw [← h.entries_after_moves more, ← foldl_follow_move]
  exact (hh.after _).browsing_eq

theorem next_after (hh : h.Follows moves) {drafts : List (Option Text)}
    (hdrafts : h.entries.length ≤ drafts.length) (last : Option Text) :
    let forward := drafts.map (Move.mk .forward)
    let forth := h.after (forward.map .move)
    (forth.next last).1 = kept (moves ++ forward) ∧
      (forth.next last).2.cursor = some h.entries.length := by
  intro forward forth
  have hentries : forth.entries = h.entries := h.entries_after_moves forward
  obtain ⟨start, rest, hplace, hstart, -, hrest⟩ :=
    exists_place_append hh.count_pos moves .forward hdrafts
  have hb := hh.browsing_after_moves forward
  rw [hplace, foldl_shift_forward hstart] at hb
  have hend : min h.entries.length (min h.entries.length (start + rest.length) + 1) =
      h.entries.length := by omega
  have hnext := browse_of_some hb ⟨.forward, last⟩
  rw [Move.shift_forward, hentries, hend] at hnext
  change forth.next last = _ at hnext
  rw [hnext]
  exact ⟨shown_of_le (Nat.le_of_eq (congrArg List.length hentries)), rfl⟩

theorem previous_after (hh : h.Follows moves) {drafts : List (Option Text)}
    (hdrafts : h.entries.length ≤ drafts.length) (last : Option Text) :
    let back := h.after ((drafts.map (Move.mk .back)).map .move)
    h.entries.head? = some (back.previous last).1 ∧ (back.previous last).2.cursor = some 0 := by
  intro back
  have hentries : back.entries = h.entries := h.entries_after_moves _
  obtain ⟨start, rest, hplace, -, hrest, -⟩ :=
    exists_place_append hh.count_pos moves .back hdrafts
  have hb := hh.browsing_after_moves (drafts.map (Move.mk .back))
  rw [hplace, foldl_shift_back, Nat.sub_eq_zero_of_le hrest] at hb
  have hprevious := browse_of_some hb ⟨.back, last⟩
  change back.previous last = _ at hprevious
  rw [hprevious, List.head?_eq_getElem?, ← hentries]
  exact ⟨shown_of_lt (b := ⟨0, _⟩) (hentries ▸ hh.count_pos), rfl⟩

end Follows

/-- After any steps, a history whose cursor and draft are set apart has failed at no index and has
both or none of them, the cursor at an entry or one after. The first move of an episode goes to the
newest entry and keeps its draft, each later one goes a position on whatever draft it offers, and
what is shown stands at the position among the entries and the draft. Enough moves forward show the
draft, enough moves back the oldest entry. -/
theorem browsing_after (sentinel : Text) (steps : List Step) :
    let h := (new sentinel).after steps
    let n := Navigator.ofHistory h
    let count := h.entries.length
    ((Navigator.new sentinel).after steps = some n ∧
        ∀ step, n.perform step =
          some ((h.perform step).1, Navigator.ofHistory (h.perform step).2)) ∧
      ((n.cursor = none ↔ n.draft = none) ∧ ∀ i, n.cursor = some i → i ≤ count) ∧
      (episode steps = [] → h.cursor = none) ∧
      (∀ first later, episode steps = first :: later →
        h.cursor = some (later.foldl (Move.shift count) (count - 1)) ∧
          h.draft = some (first.draft.getD [])) ∧
      (∀ m, ∃ i draft, (h.browse m).2.cursor = some i ∧ (h.browse m).2.draft = some draft ∧
        (h.entries ++ [draft])[i]? = some (h.browse m).1) ∧
      ∀ (drafts : List (Option Text)) (last : Option Text), count ≤ drafts.length →
        let forward := drafts.map (Move.mk .forward)
        let forth := h.after (forward.map .move)
        let back := h.after ((drafts.map (Move.mk .back)).map .move)
        ((forth.next last).1 = kept (episode steps ++ forward) ∧
            (forth.next last).2.cursor = some count) ∧
          h.entries.head? = some (back.previous last).1 ∧
            (back.previous last).2.cursor = some 0 := by
  intro h n count
  have hh : h.Follows (episode steps) := (Follows.new sentinel).after steps
  have hcursor (i : Nat) (hi : h.cursor = some i) : i ≤ count := by
    obtain ⟨b, hb, rfl⟩ := Option.map_eq_some_iff.1 hi
    exact hh.cursor_le hb
  refine ⟨⟨Navigator.after_ofHistory (.new sentinel) steps, Navigator.perform_ofHistory hh⟩,
    ⟨cursor_eq_none_iff, hcursor⟩, ?_, ?_, ?_, ?_⟩
  · intro hepisode
    rw [cursor, hh.browsing_eq, hepisode]
    rfl
  · intro first later hepisode
    rw [cursor, draft, hh.browsing_eq, hepisode, place_cons]
    exact ⟨rfl, rfl⟩
  · intro m
    obtain ⟨b, hb, hshown⟩ := hh.shown_browse m
    exact ⟨b.cursor, b.draft, by rw [cursor, hb]; rfl, by rw [draft, hb]; rfl, hshown⟩
  · intro drafts last hdrafts
    exact ⟨hh.next_after hdrafts last, hh.previous_after hdrafts last⟩

theorem browsing_after_draft :
    let moves : List Move := [⟨.back, some ['d']⟩, ⟨.back, some ['x']⟩]
    let steps := [Step.add ['a'], .add ['b']] ++ moves.map .move
    let h := (new ['s']).after steps
    let forward : List Move := [⟨.forward, none⟩, ⟨.forward, some ['y']⟩, ⟨.forward, none⟩]
    episode steps = moves ∧ h.cursor = some 1 ∧ h.draft = some ['d'] ∧
      h.entries = [['s'], ['a'], ['b']] ∧
      ((h.after (forward.map .move)).next none).1 = ['d'] := by
  intro moves steps h forward
  have hafter := browsing_after ['s'] steps
  obtain ⟨-, -, -, hepisode, -, hends⟩ := hafter
  obtain ⟨hcursor, hdraft⟩ := hepisode ⟨.back, some ['d']⟩ [⟨.back, some ['x']⟩] rfl
  have hforth := (hends [none, some ['y'], none] none (by decide)).1
  exact ⟨rfl, hcursor, hdraft, by decide, hforth.1⟩

end History

end PolishCalc
