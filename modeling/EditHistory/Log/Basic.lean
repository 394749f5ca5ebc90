/-
The undo log of one document.

Entries are kept newest first, so the head of the list is what was recorded last
and every older state of the log is a suffix of it.  A log can be switched off:
it is then emptied and stays so.

Two marks accompany the entries.  `announced` says that the first undoable change
has been announced since it was last reset; `markedTick` is the modification tick
at which the newest first-change entry was made, so that one tick gets one entry.
-/
import EditHistory.Entry

namespace EditHistory

/-- The undo log of a document. -/
structure Log where
  /-- Newest first. -/
  entries : List Entry := []
  disabled : Bool := false
  /-- The first undoable change has been announced since the last reset. -/
  announced : Bool := false
  /-- The modification tick at which a first-change entry was last made. -/
  markedTick : Option Nat := none
deriving DecidableEq, Repr, Inhabited

namespace Log

/-- A log that is switched off. -/
def off : Log := { disabled := true }

/-- The number of entries. -/
def length (log : Log) : Nat := log.entries.length

/-- The newest entry. -/
def head? (log : Log) : Option Entry := log.entries.head?

/-- Adds a newest entry. -/
def push (entry : Entry) (log : Log) : Log := { log with entries := entry :: log.entries }

/-- Whether no unit is open: the log is empty or its newest entry ends a unit. -/
def atBoundary (log : Log) : Bool := log.head?.all Entry.isBoundary

/-- Switches the log off and empties it. -/
def disable (log : Log) : Log := { log with disabled := true, entries := [], markedTick := none }

/-- Switches the log on; what was there before `disable` does not come back. -/
def enable (log : Log) : Log := { log with disabled := false }

/-- Drops every entry and keeps the marks. -/
def clear (log : Log) : Log := { log with entries := [] }

/-- Keeps the newest `count` entries. -/
def retain (count : Nat) (log : Log) : Log := { log with entries := log.entries.take count }

/-- Lets the next change be announced again. -/
def rearm (log : Log) : Log := { log with announced := false }

@[simp] theorem entries_push (e : Entry) (log : Log) : (log.push e).entries = e :: log.entries := rfl

@[simp] theorem disabled_push (e : Entry) (log : Log) : (log.push e).disabled = log.disabled := rfl

@[simp] theorem announced_push (e : Entry) (log : Log) : (log.push e).announced = log.announced := rfl

@[simp] theorem markedTick_push (e : Entry) (log : Log) :
    (log.push e).markedTick = log.markedTick := rfl

@[simp] theorem atBoundary_push (e : Entry) (log : Log) :
    (log.push e).atBoundary = e.isBoundary := rfl

theorem atBoundary_iff {log : Log} :
    log.atBoundary = true ↔ log.entries = [] ∨ ∃ older, log.entries = .boundary :: older := by
  unfold atBoundary head?
  cases log.entries with
  | nil => simp
  | cons e older => simp

end Log

end EditHistory
