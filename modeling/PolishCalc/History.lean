import PolishCalc.Text.Quoted
import PolishCalc.Number.Display

namespace PolishCalc

structure Browsing where
  cursor : Nat
  draft : Text
  deriving DecidableEq

structure History where
  sentinel : Text
  entries : List Text
  browsing : Option Browsing
  deriving DecidableEq

namespace History

def new (sentinel : Text) : History :=
  ⟨sentinel, [sentinel], none⟩

def cursor (h : History) : Option Nat :=
  h.browsing.map Browsing.cursor

def draft (h : History) : Option Text :=
  h.browsing.map Browsing.draft

def resetCursor (h : History) : History :=
  { h with browsing := none }

def clear (h : History) : History :=
  new h.sentinel

def add (h : History) (expression : Text) : History :=
  if h.entries.getLast? = some expression then h.resetCursor
  else { h with entries := h.entries.erase expression ++ [expression], browsing := none }

def startBrowsing (h : History) (draft : Option Text) : Browsing :=
  ⟨h.entries.length - 1, draft.getD []⟩

def shown (h : History) (b : Browsing) : Text :=
  (h.entries[b.cursor]?).getD b.draft

def moveTo (h : History) (b : Browsing) : Text × History :=
  (h.shown b, { h with browsing := some b })

def previous (h : History) (draft : Option Text) : Text × History :=
  match h.browsing with
  | none => h.moveTo (h.startBrowsing draft)
  | some b => h.moveTo { b with cursor := b.cursor - 1 }

def next (h : History) (draft : Option Text) : Text × History :=
  match h.browsing with
  | none => h.moveTo (h.startBrowsing draft)
  | some b => h.moveTo { b with cursor := min h.entries.length (b.cursor + 1) }

theorem sentinel_add (h : History) (text : Text) : (h.add text).sentinel = h.sentinel := by
  unfold add
  split <;> rfl

theorem sentinel_previous (h : History) (draft : Option Text) :
    (h.previous draft).2.sentinel = h.sentinel := by
  unfold previous
  split <;> rfl

theorem sentinel_next (h : History) (draft : Option Text) :
    (h.next draft).2.sentinel = h.sentinel := by
  unfold next
  split <;> rfl

def dump (h : History) : Text :=
  "cursor: ".toList ++ (h.cursor.map fun n => integerText n).getD "None".toList ++
    "\ndraft: ".toList ++ (h.draft.map Text.quoted).getD "None".toList ++
    "\ninputs: ".toList ++ List.intercalate ",\n        ".toList h.entries

end History

end PolishCalc
