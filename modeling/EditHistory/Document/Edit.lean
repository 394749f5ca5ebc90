/-
Editing a document.

Every operation reports to the recorder before it touches the text, then makes
the edit and moves the cursor, the markers and the property spans along.  A
replacement is the exception: it changes characters in place, so nothing moves.

An operation refuses what is out of range before anything is recorded.
-/
import EditHistory.Document.Basic

namespace EditHistory.Document

/-! ### The edits themselves -/

/-- One more modification. -/
def touch (doc : Document) : Document :=
  { doc with ticks := { doc.ticks with modified := doc.ticks.modified + 1 } }

/-- Every offset of the document and of its markers, and its tick, is a machine word. -/
def InRange (s : Editing Document) : Prop :=
  Offset.Fits s.doc.point ∧ Offset.Fits s.doc.ticks.modified ∧
    (∀ m ∈ s.markers.ofDoc s.doc.id, Offset.Fits m.2.position) ∧
    ∀ span ∈ s.doc.spans, Offset.Fits span.start ∧ Offset.Fits span.stop

instance (s : Editing Document) : Decidable (InRange s) :=
  inferInstanceAs (Decidable (_ ∧ _ ∧ _ ∧ _))

/-- The result of an edit, unless one of its sums is no machine word. -/
def checked (s : Editing Document) : Except Failure (Editing Document) :=
  if InRange s then .ok s else .error (.fault .overflow)

/-- Inserts text and moves everything behind it along; the cursor goes behind the text. -/
def insertText (start : Nat) (added : Text) (s : Editing Document) :
    Except Failure (Editing Document) :=
  match s.doc.text.insert start added with
  | .error e => .error (.error (.text e))
  | .ok text =>
    checked
      { s with
        markers := s.markers.afterInsert s.doc.id start added.length
        doc := touch { s.doc with
          text
          point := start + added.length
          spans := s.doc.spans.map (·.afterInsert start added.length) } }

/-- Removes text and closes the gap; a span that loses all its text is gone. -/
def removeText (start stop : Nat) (s : Editing Document) : Except Failure (Editing Document) :=
  match s.doc.text.remove start stop with
  | .error e => .error (.error (.text e))
  | .ok text =>
    checked
      { s with
        markers := s.markers.afterDelete s.doc.id start stop
        doc := touch { s.doc with
          text
          point := Offset.afterDelete start stop s.doc.point
          spans := (s.doc.spans.map (·.afterDelete start stop)).filter
            fun span => span.start < span.stop } }

/-- Writes text over other text; nothing moves. -/
def overwriteText (start : Nat) (new : Text) (s : Editing Document) :
    Except Failure (Editing Document) :=
  match s.doc.text.overwrite start new with
  | .error e => .error e
  | .ok text => checked { s with doc := touch { s.doc with text } }

/-! ### The operations -/

/-- Inserts text at the cursor. -/
def insert (text : Text) : EditM Document Unit := do
  unless text.isEmpty do
    let start := (← get).doc.point
    EditM.record (Recording.recordInsert start text.length)
    EditM.apply (insertText start text)

/-- Deletes the characters from `start` up to `stop`. -/
def deleteRange (start stop : Nat) : EditM Document Unit := do
  match (← get).doc.text.slice start stop with
  | .error e => throw (.error (.deleting start stop e))
  | .ok text =>
    unless text.isEmpty do
      EditM.record (Recording.recordDelete start text true)
      EditM.apply (removeText start stop)

/-- Says of a refused recording that it was one of a replacement. -/
def whileReplacing : Failure → Failure
  | .error (.history cause) => .error (.replacing cause)
  | failure => failure

/-- Replaces as many characters from `start` on as the new text has. -/
def replaceRange (start : Nat) (new : Text) : EditM Document Unit := do
  let stop := start + new.length
  EditM.require (Offset.Fits stop)
  let length := (← get).doc.text.length
  if length < stop then throw (.error (.replacementOutside start stop length))
  EditM.mapFailure whileReplacing (EditM.record (Recording.recordChange start new.length))
  EditM.apply (overwriteText start new)

end EditHistory.Document
