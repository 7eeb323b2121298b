import Mathlib.Data.List.Dedup
import PolishCalc.History

namespace PolishCalc.History

inductive Direction where
  | back
  | forward

structure Move where
  direction : Direction
  draft : Option Text

inductive Step where
  | add (text : Text)
  | move (m : Move)
  | resetCursor
  | clear

def browse (h : History) (m : Move) : Text × History :=
  match m.direction with
  | .back => h.previous m.draft
  | .forward => h.next m.draft

def perform (h : History) : Step → Option Text × History
  | .add text => (none, h.add text)
  | .move m => (some (h.browse m).1, (h.browse m).2)
  | .resetCursor => (none, h.resetCursor)
  | .clear => (none, h.clear)

def after (h : History) (steps : List Step) : History :=
  steps.foldl (fun h step => (h.perform step).2) h

def Step.record (texts : List Text) : Step → List Text
  | .add text => texts ++ [text]
  | .move _ => texts
  | .resetCursor => texts
  | .clear => []

def added (steps : List Step) : List Text :=
  steps.foldl Step.record []

theorem dedup_append_singleton (texts : List Text) (text : Text) :
    (texts ++ [text]).dedup = texts.dedup.filter (· != text) ++ [text] := by
  induction texts with
  | nil => rfl
  | cons entry texts ih =>
    rw [List.cons_append]
    by_cases hmem : entry ∈ texts
    · rw [List.dedup_cons_of_mem hmem, List.dedup_cons_of_mem (List.mem_append_left _ hmem), ih]
    rw [List.dedup_cons_of_notMem hmem]
    by_cases hsame : entry = text
    · subst hsame
      rw [List.dedup_cons_of_mem (by simp), ih, List.filter_cons_of_neg (by simp)]
    · rw [List.dedup_cons_of_notMem (by simp [hmem, hsame]), ih,
        List.filter_cons_of_pos (by simp [hsame]), List.cons_append]

theorem getLast?_dedup (texts : List Text) : texts.dedup.getLast? = texts.getLast? := by
  rcases List.eq_nil_or_concat texts with rfl | ⟨front, text, rfl⟩
  · rfl
  · simp [dedup_append_singleton]

theorem entries_add {h : History} (hnodup : h.entries.Nodup) (text : Text) :
    (h.add text).entries = h.entries.filter (· != text) ++ [text] := by
  unfold add
  split
  · rename_i hlast
    obtain ⟨front, hfront⟩ := List.getLast?_eq_some_iff.1 hlast
    have hnot : text ∉ front := by
      rw [hfront] at hnodup
      exact fun hmem => (List.nodup_append.1 hnodup).2.2 text hmem text (by simp) rfl
    have hkept : front.filter (· != text) = front := by
      rw [List.filter_eq_self]
      intro entry hentry
      simpa using fun heq : entry = text => hnot (heq ▸ hentry)
    change h.entries = _
    rw [hfront, List.filter_append, hkept]
    simp
  · change h.entries.erase text ++ [text] = _
    rw [hnodup.erase_eq_filter]

theorem exists_browse_eq (h : History) (m : Move) : ∃ b, h.browse m = h.moveTo b := by
  obtain ⟨direction, draft⟩ := m
  cases direction with
  | back =>
    change ∃ b, h.previous draft = h.moveTo b
    unfold previous
    split <;> exact ⟨_, rfl⟩
  | forward =>
    change ∃ b, h.next draft = h.moveTo b
    unfold next
    split <;> exact ⟨_, rfl⟩

theorem entries_browse (h : History) (m : Move) : (h.browse m).2.entries = h.entries := by
  obtain ⟨b, hb⟩ := h.exists_browse_eq m
  rw [hb]
  rfl

structure Recent (sentinel : Text) (texts : List Text) (h : History) : Prop where
  sentinel_eq : h.sentinel = sentinel
  entries_eq : h.entries = (sentinel :: texts).dedup

namespace Recent

variable {sentinel : Text} {texts : List Text} {h : History}

theorem new (sentinel : Text) : (History.new sentinel).Recent sentinel [] :=
  ⟨rfl, rfl⟩

theorem nodup (hh : h.Recent sentinel texts) : h.entries.Nodup :=
  hh.entries_eq ▸ List.nodup_dedup _

theorem add (hh : h.Recent sentinel texts) (text : Text) :
    (h.add text).Recent sentinel (texts ++ [text]) where
  sentinel_eq := (h.sentinel_add text).trans hh.sentinel_eq
  entries_eq := by
    rw [entries_add hh.nodup, hh.entries_eq, ← List.cons_append, dedup_append_singleton]

theorem browse (hh : h.Recent sentinel texts) (m : Move) :
    (h.browse m).2.Recent sentinel texts := by
  obtain ⟨b, hb⟩ := h.exists_browse_eq m
  rw [hb]
  exact ⟨hh.sentinel_eq, hh.entries_eq⟩

theorem perform (hh : h.Recent sentinel texts) (step : Step) :
    (h.perform step).2.Recent sentinel (step.record texts) := by
  cases step with
  | add text => exact hh.add text
  | move m => exact hh.browse m
  | resetCursor => exact ⟨hh.sentinel_eq, hh.entries_eq⟩
  | clear => exact ⟨hh.sentinel_eq, congrArg (fun text => [text]) hh.sentinel_eq⟩

theorem after (hh : h.Recent sentinel texts) (steps : List Step) :
    (h.after steps).Recent sentinel (steps.foldl Step.record texts) := by
  induction steps generalizing h texts with
  | nil => exact hh
  | cons step steps ih => exact ih (hh.perform step)

theorem ne_nil (hh : h.Recent sentinel texts) : h.entries ≠ [] := by
  rw [hh.entries_eq, ne_eq, List.dedup_eq_nil]
  exact List.cons_ne_nil _ _

end Recent

/-- The entries are the sentinel and the texts added since the log was last cleared, of each of
which the last occurrence is kept. So there is always one, none is there twice, the text added last
stands last, adding a text leaves the order of the others, and browsing leaves them all. -/
theorem entries_after (sentinel : Text) (steps : List Step) :
    let h := (new sentinel).after steps
    h.entries = (sentinel :: added steps).dedup ∧
      h.entries ≠ [] ∧ h.entries.Nodup ∧
      h.entries.getLast? = some ((added steps).getLast?.getD sentinel) ∧
      (∀ text, (h.add text).entries = h.entries.filter (· != text) ++ [text]) ∧
      (∀ m, (h.browse m).2.entries = h.entries) ∧ h.resetCursor.entries = h.entries := by
  intro h
  have hrecent : h.Recent sentinel (added steps) := (Recent.new sentinel).after steps
  have hlast : h.entries.getLast? = some ((added steps).getLast?.getD sentinel) := by
    rw [hrecent.entries_eq, getLast?_dedup, List.getLast?_cons]
  exact ⟨hrecent.entries_eq, hrecent.ne_nil, hrecent.nodup, hlast, entries_add hrecent.nodup,
    h.entries_browse, rfl⟩

example : ((new ['s']).after [.add ['a'], .clear, .add ['b'], .add ['c'], .move ⟨.back, none⟩,
    .add ['s'], .add ['b']]).entries = [['c'], ['s'], ['b']] := by
  decide

end PolishCalc.History
