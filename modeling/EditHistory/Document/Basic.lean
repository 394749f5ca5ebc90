/-
Documents: a text with a cursor, markers and properties, and its undo log.

The cursor and the markers that a document makes never leave its text.  Text
properties are named values over spans; the spans are kept latest first, so that
the first one that covers a position tells its value.
-/
import EditHistory.Editing

namespace EditHistory

/-- A text property: `name` has this value from `start` up to `stop`. -/
structure Span where
  start : Nat
  stop : Nat
  name : String
  value : Json
deriving DecidableEq, Repr

namespace Span

/-- The span gives the property a value at this position. -/
def Covers (span : Span) (pos : Nat) (name : String) : Prop :=
  span.name = name ∧ span.start ≤ pos ∧ pos < span.stop

instance (span : Span) (pos : Nat) (name : String) : Decidable (span.Covers pos name) :=
  inferInstanceAs (Decidable (_ ∧ _))

/-- The span after text was inserted: text put in right at its end stays outside. -/
def afterInsert (start length : Nat) (span : Span) : Span :=
  { span with
    start := Offset.afterInsert start length true span.start
    stop := Offset.afterInsert start length false span.stop }

/-- The span after text was deleted. -/
def afterDelete (start stop : Nat) (span : Span) : Span :=
  { span with
    start := Offset.afterDelete start stop span.start
    stop := Offset.afterDelete start stop span.stop }

end Span

/-- A document. -/
structure Document where
  id : DocId
  text : Text := []
  /-- The cursor. -/
  point : Nat := 0
  ticks : Ticks := {}
  /-- The modification time of the file that the document was last saved to. -/
  modtime : Option Int := none
  /-- The latest first. -/
  spans : List Span := []
  log : Log := {}
deriving Repr

namespace Document

/-- A document that holds the text and nothing else. -/
def ofText (id : DocId) (text : Text) : Document := { id, text }

instance : Recordable Document where
  log doc := doc.log
  setLog log doc := { doc with log }
  view markers doc :=
    { doc := doc.id
      point := doc.point
      ticks := doc.ticks
      modtime := doc.modtime
      markers := markers.ofDoc doc.id
      read := doc.text.slice }

/-- Whether the document was modified since it was saved. -/
def isModified (doc : Document) : Bool := doc.ticks.saved < doc.ticks.modified

/-- Puts the cursor somewhere in the text; positions beyond its end mean the end. -/
def setPoint (pos : Nat) (doc : Document) : Document :=
  { doc with point := min pos doc.text.length }

/-- Counts the document as not modified. -/
def markUnmodified (doc : Document) : Document :=
  { doc with ticks := { doc.ticks with saved := doc.ticks.modified } }

/-- Counts the document as saved to a file with this modification time. -/
def markSaved (modtime : Int) (doc : Document) : Document :=
  { doc.markUnmodified with modtime := some modtime }

/-- A marker of the document at a place in its text; places beyond its end mean the end. -/
def marker (pos : Nat) (advances : Bool) (doc : Document) : Marker :=
  { position := min pos doc.text.length, advances, owner := some doc.id }

/-- The value of a property at a position: the latest span tells it, and where there is none it is null. -/
def propertyAt (doc : Document) (pos : Nat) (name : String) : Json :=
  ((doc.spans.find? (·.Covers pos name)).map (·.value)).getD .null

@[simp] theorem text_setPoint (pos : Nat) (doc : Document) : (doc.setPoint pos).text = doc.text := rfl

@[simp] theorem point_setPoint (pos : Nat) (doc : Document) :
    (doc.setPoint pos).point = min pos doc.text.length := rfl

end Document

end EditHistory
