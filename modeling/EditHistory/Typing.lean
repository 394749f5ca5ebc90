/-
Typing a whole text, and measuring what that leaves in the log.

A text is typed in pieces, one unit a piece, as an editor would do it whose user
stops after every few characters.  The report sums up the log in four numbers.
-/
import EditHistory.Document.Edit

namespace EditHistory

/-- The pieces of a list, each of `size` elements but for the last. -/
def pieces {α : Type} (size : Nat) (l : List α) : List (List α) :=
  match l with
  | [] => []
  | a :: rest => (a :: rest.take (size - 1)) :: pieces size (rest.drop (size - 1))
termination_by l.length
decreasing_by simp only [List.length_drop, List.length_cons]; omega

namespace Document

/-- Types one piece at the cursor, as a unit of its own. -/
def typePiece (piece : Text) : EditM Document Unit := do
  insert piece
  EditM.record Recording.insertBoundary

/-- Types a text at the cursor, `size` characters a unit, and at least one. -/
def typeIn (text : Text) (size : Nat) : EditM Document Unit :=
  (pieces (max size 1) text).forM typePiece

end Document

/-- The size of a log in four numbers. -/
structure Report where
  entries : Nat
  units : Nat
  bytes : Nat
  /-- The bytes of the newest units that were asked for. -/
  newestBytes : Nat
deriving DecidableEq, Repr

namespace Report

/-- Sums up a log, measuring its newest `units` units apart. -/
def ofLog (log : Log) (units : Int) : Except HistoryError Report := do
  let bytes ← log.sizeWithin none
  let newestBytes ← log.sizeWithin (some units)
  return {
    entries := log.length
    units := log.unitCount
    bytes := bytes.getD 0
    newestBytes := newestBytes.getD 0 }

/-- The wording of the report. -/
def describe (r : Report) : String :=
  s!"Report \x7b entries: {r.entries}, units: {r.units}, bytes: {r.bytes}, newest_bytes: {r.newestBytes} \x7d"

end Report

end EditHistory
