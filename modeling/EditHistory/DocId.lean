/-
Names of documents.

A log entry that belongs to one document says so by the document's number, and
the recorder remembers documents by it.  Numbers are handed out in order and
never twice.
-/

namespace EditHistory

/-- The number of a document, unique in a run. -/
structure DocId where
  number : Nat
deriving DecidableEq, Repr

namespace DocId

instance : ToString DocId where
  toString id := s!"doc-{id.number}"

/-- The next `count` names, from the name `first` on. -/
def supply (first : Nat) (count : Nat) : List DocId :=
  (List.range count).map fun i => ⟨first + i⟩

end DocId

end EditHistory
