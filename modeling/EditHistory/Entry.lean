/-
The entries of an undo log.

An entry says what has to be taken back, not what was done: an insertion is
remembered by the stretch it produced, a deletion by its text, a marker's
displacement by its distance.  A `boundary` closes the unit of entries older than
it, so that one undo command takes back one unit.

The cost of an entry is a fixed estimate of the memory it holds, in bytes, and is
what the size limits of a log are measured in.
-/
import EditHistory.DocId
import EditHistory.Json.Basic

namespace EditHistory

/-- The number of a marker, unique in a run. -/
abbrev MarkerId := Nat

/-- A text property had this value over a stretch of a document. -/
structure PropertyChange where
  doc : DocId
  name : String
  old : Json
  start : Nat
  stop : Nat
deriving DecidableEq, Repr

/-- One step of a log. -/
inductive Entry where
  /-- The end of a unit. -/
  | boundary
  /-- The characters from `start` up to `stop` were inserted. -/
  | insertion (start stop : Nat)
  /-- The text was deleted at `|offset|`; a negative offset says that the cursor stood behind it. -/
  | deletion (text : List Char) (offset : Int)
  /-- The cursor stood at `position` before the unit. -/
  | pointMove (position : Nat)
  /-- The following deletion displaced a marker by `delta`. -/
  | markerShift (marker : MarkerId) (delta : Int)
  /-- A text property was changed. -/
  | propertyChange (change : PropertyChange)
  /-- The document was unmodified, and its file had this modification time. -/
  | firstChange (modtime : Option Int)
deriving DecidableEq, Repr

namespace Entry

/-- Whether the entry ends a unit. -/
def isBoundary : Entry → Bool
  | .boundary => true
  | _ => false

@[simp] theorem isBoundary_iff {e : Entry} : e.isBoundary = true ↔ e = .boundary := by
  cases e <;> simp [isBoundary]

/-- The cost of a link of the log. -/
def linkCost : Nat := 16

/-- The cost of a cell that a link points to. -/
def cellCost : Nat := 16

/-- The cost of a stored text, its characters apart. -/
def textCost : Nat := 31

/-- The memory that the entry accounts for, in bytes. -/
def cost : Entry → Nat
  | .boundary | .pointMove _ => linkCost
  | .deletion text _ => linkCost + cellCost + textCost + text.length
  | .insertion .. | .markerShift .. | .propertyChange _ | .firstChange _ => linkCost + cellCost

theorem cost_pos (e : Entry) : 0 < e.cost := by
  cases e <;> simp only [cost, linkCost, cellCost, textCost] <;> omega

/-- The cost of a stretch of a log. -/
def totalCost : List Entry → Nat
  | [] => 0
  | e :: older => e.cost + totalCost older

@[simp] theorem totalCost_nil : totalCost [] = 0 := rfl

@[simp] theorem totalCost_cons (e : Entry) (older : List Entry) :
    totalCost (e :: older) = e.cost + totalCost older := rfl

@[simp] theorem totalCost_append (newer older : List Entry) :
    totalCost (newer ++ older) = totalCost newer + totalCost older := by
  induction newer with
  | nil => rw [List.nil_append, totalCost_nil, Nat.zero_add]
  | cons e newer ih => rw [List.cons_append, totalCost_cons, totalCost_cons, ih, Nat.add_assoc]

/--
Equality of entries as their readers see it: two property changes are equal when
their old values are the same value, however they were written.
-/
def Same : Entry → Entry → Prop
  | .propertyChange a, .propertyChange b =>
    a.doc = b.doc ∧ a.name = b.name ∧ a.old.Same b.old ∧ a.start = b.start ∧ a.stop = b.stop
  | a, b => a = b

instance : (a b : Entry) → Decidable (Same a b) := by
  intro a b
  unfold Same
  split <;> infer_instance

end Entry

end EditHistory
