/-
What can go wrong.

An error is an answer: the operation refused its arguments, and the caller may go
on.  A fault is not: a sum left the range of a machine word, or a character was
asked for that is not there, and the run ends.  The two are kept apart so that
"is refused" and "cannot happen" are different statements.

Every error is named by its cause.  Its wording is in `message`, and the chain of
causes below it, outermost first, in `causes`.
-/
import EditHistory.DocId

namespace EditHistory

/-- Why a stretch of text cannot be read or changed. -/
inductive TextError where
  /-- The insertion is beyond the end of a text of this length. -/
  | insertPastEnd (offset length : Nat)
  /-- The span is reversed or reaches beyond the end of a text of this length. -/
  | spanOutside (start stop length : Nat)
  /-- The range is reversed or reaches beyond the end of a text that does not tell its length. -/
  | rangeOutside (start stop : Nat)
deriving DecidableEq, Repr

namespace TextError

/-- The wording of the error. -/
def message : TextError → String
  | .insertPastEnd offset length => s!"cannot insert at char {offset}: text ends at {length}"
  | .spanOutside start stop length =>
    s!"span {start}..{stop} is not within the text (0..{length})"
  | .rangeOutside start stop => s!"range {start}..{stop} out of bounds"

end TextError

/-- Why the history of a document refused a request. -/
inductive HistoryError where
  /-- A number of units to measure was negative. -/
  | negativeUnits (count : Int)
  /-- The text to be recorded could not be read from the document. -/
  | unreadable (cause : TextError)
  /-- The outer-limit hook failed, with a text of its own. -/
  | hookFailed (text : String)
deriving DecidableEq, Repr

namespace HistoryError

/-- The wording of the error. -/
def message : HistoryError → String
  | .negativeUnits count => s!"invalid argument: unit limit must be a count, got {count}"
  | .unreadable cause => s!"failed to read document text: {cause.message}"
  | .hookFailed text => s!"outer limit hook failed: {text}"

/-- The wordings of the causes below the error. -/
def causes : HistoryError → List String
  | .negativeUnits _ => []
  | .unreadable cause => [cause.message]
  | .hookFailed text => [text]

end HistoryError

/-- Why an editing operation was refused. -/
inductive EditError where
  /-- The history refused. -/
  | history (cause : HistoryError)
  /-- The history refused to record a replacement. -/
  | replacing (cause : HistoryError)
  /-- The text refused. -/
  | text (cause : TextError)
  /-- The text to be deleted is not there. -/
  | deleting (start stop : Nat) (cause : TextError)
  /-- A replacement reaches beyond the end of a text of this length. -/
  | replacementOutside (start stop length : Nat)
  /-- A property range is reversed or reaches beyond the end of a text of this length. -/
  | propertyOutside (start stop length : Nat)
  /-- A property change of one document was to be undone in another. -/
  | foreignProperty (recorded here : DocId)
deriving DecidableEq, Repr

namespace EditError

/-- The wording of the error. -/
def message : EditError → String
  | .history cause => cause.message
  | .replacing _ => "recording replacement"
  | .text cause => cause.message
  | .deleting start stop _ => s!"deleting {start}..{stop}"
  | .replacementOutside start stop length =>
    s!"replacement {start}..{stop} out of bounds (document has {length} chars)"
  | .propertyOutside start stop length =>
    s!"property range {start}..{stop} out of bounds (document has {length} chars)"
  | .foreignProperty recorded here => s!"property change for {recorded} replayed in {here}"

/-- The wordings of the causes below the error, outermost first. -/
def causes : EditError → List String
  | .history cause => cause.causes
  | .replacing cause => cause.message :: cause.causes
  | .deleting _ _ cause => [cause.message]
  | .text _ | .replacementOutside .. | .propertyOutside .. | .foreignProperty .. => []

/-- The refusal of the history behind the error, if that is what it comes from. -/
def history? : EditError → Option HistoryError
  | .history cause | .replacing cause => some cause
  | .text _ | .deleting .. | .replacementOutside .. | .propertyOutside .. | .foreignProperty .. =>
    none

end EditError

/-- Why a run ends. -/
inductive Fault where
  /-- A sum, difference or negation is no machine word. -/
  | overflow
  /-- A character that is not in the text was asked for. -/
  | missingCharacter
  /-- A command was addressed to something that is not there, or is of another kind. -/
  | misaddressed
deriving DecidableEq, Repr

/-- An operation that does not succeed is refused or ends the run. -/
inductive Failure where
  | fault (fault : Fault)
  | error (error : EditError)
deriving DecidableEq, Repr

end EditHistory
