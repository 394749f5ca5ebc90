/-
Descriptions for people: the recorder and a document in one line each.

A description names its fields; braces hold a record, and an absent value is
written apart from a present one.  Text is quoted, with its control characters
escaped.
-/
import EditHistory.Document.Basic

namespace EditHistory

namespace Describe

/-- A record with named fields. -/
def record (name : String) (fields : List (String × String)) : String :=
  name ++ " \x7b " ++ String.intercalate ", " (fields.map fun (k, v) => k ++ ": " ++ v) ++ " \x7d"

/-- A record some of whose fields are not shown. -/
def openRecord (name : String) (fields : List (String × String)) : String :=
  name ++ " \x7b " ++ String.join (fields.map fun (k, v) => k ++ ": " ++ v ++ ", ") ++ ".. \x7d"

/-- A value that may be absent. -/
def optional : Option String → String
  | none => "None"
  | some s => "Some(" ++ s ++ ")"

/-- The name of a document. -/
def docId (id : DocId) : String := s!"DocId({id.number})"

/-- A character of a quoted text. -/
def escape (c : Char) : String :=
  if c = '"' then "\\\""
  else if c = '\\' then "\\\\"
  else if c = '\n' then "\\n"
  else if c = '\r' then "\\r"
  else if c = '\t' then "\\t"
  else if c.toNat = 0 then "\\0"
  else if c.toNat < 32 ∨ c.toNat = 127 then
    "\\u\x7b" ++ String.ofList (Nat.toDigits 16 c.toNat) ++ "\x7d"
  else c.toString

/-- A text in quotes. -/
def quoted (text : Text) : String := "\"" ++ String.join (text.map escape) ++ "\""

end Describe

/-- The settings in one line. -/
def Settings.describe (s : Settings) : String :=
  Describe.record "HistoryConfig"
    [("undo_limit", toString s.softLimit),
      ("undo_strong_limit", toString s.strongLimit),
      ("undo_outer_limit", Describe.optional (s.outerLimit.map toString)),
      ("inhibit_record_point", toString s.inhibitPoint)]

/-- A boundary in one line. -/
def LastBoundary.describe (b : LastBoundary) : String :=
  Describe.record "LastBoundary" [("doc", Describe.docId b.doc), ("position", toString b.position)]

/-- The recorder in one line. -/
def Recorder.describe (r : Recorder) : String :=
  Describe.record "UndoManager"
    [("config", r.settings.describe),
      ("boundary", Describe.record "BoundaryState"
        [("last", Describe.optional (r.lastBoundary.map (·.describe))),
          ("pending", Describe.optional (r.pending.map Describe.docId))]),
      ("has_outer_limit_hook", toString r.hook.isSome),
      ("has_first_change_listener", toString r.listening)]

/-- A document in one line; `markers` is how many it has. -/
def Document.describe (markers : Nat) (doc : Document) : String :=
  Describe.openRecord "Document"
    [("id", Describe.docId doc.id),
      ("buffer", Describe.record "TextBuffer"
        [("rope", "[" ++ (if doc.text.isEmpty then "" else Describe.quoted doc.text) ++ "]")]),
      ("point", toString doc.point),
      ("markers", toString markers),
      ("modified_tick", toString doc.ticks.modified),
      ("saved_tick", toString doc.ticks.saved),
      ("log_len", toString doc.log.length)]

end EditHistory
