/-
Drafts: documents without guard rails.

A draft holds a text, a cursor, ticks and a log like a document, but nothing keeps
the cursor or the markers inside the text, and typing leaves the markers where
they are.  It shows what recording does when its caller is careless: the recorder
promises nothing about the offsets it is given.
-/
import EditHistory.Editing

namespace EditHistory

/-- A document that is not checked. -/
structure Draft where
  id : DocId
  text : Text := []
  point : Nat := 0
  ticks : Ticks := {}
  modtime : Option Int := none
  log : Log := {}
deriving Repr

namespace Draft

/-- A draft that holds the text and nothing else. -/
def ofText (id : DocId) (text : Text) : Draft := { id, text }

/-- Reads the text between two offsets. -/
def read (draft : Draft) (start stop : Nat) : Except TextError Text :=
  if start ≤ stop ∧ stop ≤ draft.text.length then .ok (draft.text.between start stop)
  else .error (.rangeOutside start stop)

instance : Recordable Draft where
  log draft := draft.log
  setLog log draft := { draft with log }
  view markers draft :=
    { doc := draft.id
      point := draft.point
      ticks := draft.ticks
      modtime := draft.modtime
      markers := markers.ofDoc draft.id
      read := draft.read }

/-- Counts the draft as saved, to a file of this modification time if there is one. -/
def save (modtime : Option Int) (draft : Draft) : Draft :=
  { draft with ticks := { draft.ticks with saved := draft.ticks.modified }, modtime }

/-- The draft after an edit that leaves the cursor at `point`, unless the tick is no machine word. -/
def edited (text : Text) (point : Nat) (s : Editing Draft) : Except Failure (Editing Draft) :=
  if Offset.Fits (s.doc.ticks.modified + 1) then
    .ok { s with
      doc := { s.doc with
        text
        point
        ticks := { s.doc.ticks with modified := s.doc.ticks.modified + 1 } } }
  else .error (.fault .overflow)

/-- Types one character at the cursor, which must be in the text. -/
def typeChar (c : Char) : EditM Draft Unit := do
  EditM.record fun v => Recording.recordInsert v.point 1 v
  EditM.apply fun s =>
    if s.doc.point ≤ s.doc.text.length then
      edited (s.doc.text.spliced s.doc.point [c]) (s.doc.point + 1) s
    else .error (.fault .missingCharacter)

/-- Types text at the cursor, one recorded character at a time. -/
def typeText (text : Text) : EditM Draft Unit := text.forM typeChar

/-- Deletes the character before the cursor, which must be there. -/
def backspace : EditM Draft Unit := do
  let draft := (← get).doc
  EditM.require (0 < draft.point)
  let start := draft.point - 1
  match draft.text[start]? with
  | none => throw (.fault .missingCharacter)
  | some c =>
    EditM.record (Recording.recordDelete start [c] true)
    EditM.apply (edited (draft.text.without start (start + 1)) start)

end Draft

end EditHistory
