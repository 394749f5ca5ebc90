/-
Documents call by call.

Every operation that a user or an undo asks of a document is a `Call`.  An undo is
not one: it is the list of calls that its log spells out, which is what
`undo_eq_runAll` says.  So the moments inside an undo are moments like any other,
and what every call keeps is kept in the middle of an undo too.

`Call.after` is the moment a call leads to unless a sum overflows.  From the point
of view of the log there are few kinds of calls: those that record nothing and
leave the text alone, and the five edits.  `Deed` sorts the calls by kind.
-/
import EditHistory.Document.Undo
import EditHistory.Proofs.Document.Edits
import EditHistory.Typing

namespace EditHistory

/-- What can be asked of a document in one go. -/
inductive Call where
  | setPoint (pos : Nat)
  | insert (text : Text)
  | deleteRange (start stop : Nat)
  | replaceRange (start : Nat) (text : Text)
  | putProperty (start stop : Nat) (name : String) (value : Json)
  | markSaved (modtime : Int)
  | markUnmodified
  | makeMarker (pos : Nat) (advances : Bool)
  | dropMarker (id : MarkerId)
  | boundary
  /-- Takes back the displacement of a marker. -/
  | restoreMarker (id : MarkerId) (delta : Int)
  /-- Takes back a property change, if it was one of this document. -/
  | restoreProperty (change : PropertyChange)
  /-- Counts the document as unmodified if its file is still the one of this modification time. -/
  | revisit (modtime : Option Int)

namespace Call

/-- Carries out a call. -/
def run : Call → EditM Document Unit
  | .setPoint pos => EditM.modifyDoc (Document.setPoint pos)
  | .insert text => Document.insert text
  | .deleteRange start stop => Document.deleteRange start stop
  | .replaceRange start text => Document.replaceRange start text
  | .putProperty start stop name value => Document.putProperty start stop name value
  | .markSaved modtime => EditM.modifyDoc (Document.markSaved modtime)
  | .markUnmodified => EditM.modifyDoc Document.markUnmodified
  | .makeMarker pos advances =>
    modify fun s => { s with markers := s.markers.push (s.doc.marker pos advances) }
  | .dropMarker id => modify fun s =>
    if s.markers.owns s.doc.id id then { s with markers := s.markers.detach id } else s
  | .boundary => EditM.record Recording.insertBoundary
  | .restoreMarker id delta => EditM.apply (Document.restoreMarker id delta)
  | .restoreProperty change => do
    let here := (← get).doc.id
    if change.doc = here then Document.putProperty change.start change.stop change.name change.old
    else throw (.error (.foreignProperty change.doc here))
  | .revisit modtime =>
    EditM.modifyDoc fun doc => if modtime = doc.modtime then doc.markUnmodified else doc

/-- Carries out calls in order, up to the first that fails. -/
def runAll (calls : List Call) : EditM Document Unit := calls.forM run

theorem runAll_append (calls calls' : List Call) :
    runAll (calls ++ calls') = (do runAll calls; runAll calls') := by
  unfold runAll
  rw [List.forM_eq_forM, List.forM_append]

theorem runAll_singleton (call : Call) : runAll [call] = call.run := by
  unfold runAll
  rw [List.forM_eq_forM, List.forM_cons]
  exact bind_pure_unit

end Call

/-! ### Undo, spelled out -/

/-- The calls that take back an entry. -/
def Entry.undoCalls : Entry → List Call
  | .boundary => []
  | .insertion start stop => [.deleteRange start stop, .setPoint start]
  | .deletion text offset =>
    [.setPoint offset.natAbs, .insert text] ++ if 0 ≤ offset then [.setPoint offset.natAbs] else []
  | .pointMove position => [.setPoint position]
  | .markerShift id delta => [.restoreMarker id delta]
  | .propertyChange change => [.restoreProperty change]
  | .firstChange modtime => [.revisit modtime]

namespace Document

open Call

/-- The calls that take back a unit. -/
def unitCalls (unit : List Entry) : List Call := unit.flatMap Entry.undoCalls ++ [.boundary]

/-- The calls that take back the `count` newest units of a log. -/
def undoCalls (count : Nat) (log : Log) : List Call :=
  .boundary :: (log.units.take count).flatMap unitCalls

theorem undoEntry_eq_runAll (e : Entry) : undoEntry e = runAll e.undoCalls := by
  cases e with
  | boundary => rfl
  | insertion start stop => rw [Entry.undoCalls, ← List.singleton_append, runAll_append,
      runAll_singleton, runAll_singleton]; rfl
  | deletion text offset =>
      have hpair : runAll [.setPoint offset.natAbs, .insert text]
          = (do EditM.modifyDoc (setPoint offset.natAbs); insert text) := by
        rw [← List.singleton_append, runAll_append, runAll_singleton, runAll_singleton]
        rfl
      rw [Entry.undoCalls, runAll_append, hpair]
      by_cases h : 0 ≤ offset
      · simp only [h, if_true, runAll_singleton, undoEntry, bind_assoc]
        rfl
      · simp only [h, if_false, undoEntry, bind_assoc]
        rfl
  | pointMove position => rw [Entry.undoCalls, runAll_singleton]; rfl
  | markerShift id delta => rw [Entry.undoCalls, runAll_singleton]; rfl
  | propertyChange change => rw [Entry.undoCalls, runAll_singleton]; rfl
  | firstChange modtime => rw [Entry.undoCalls, runAll_singleton]; rfl

/-- Running what each element spells out is running it all. -/
theorem forM_eq_runAll {α : Type} (act : α → EditM Document Unit) (calls : α → List Call)
    (h : ∀ a, act a = runAll (calls a)) (l : List α) :
    l.forM act = runAll (l.flatMap calls) := by
  induction l with
  | nil => rfl
  | cons a rest ih =>
      rw [List.flatMap_cons, runAll_append, ← h, ← ih]
      rfl

theorem undoUnit_eq_runAll (unit : List Entry) : undoUnit unit = runAll (unitCalls unit) := by
  unfold undoUnit unitCalls
  rw [forM_eq_runAll undoEntry Entry.undoCalls undoEntry_eq_runAll, runAll_append,
    runAll_singleton]
  rfl

/-- An undo is the calls that the log spells out. -/
theorem undo_eq_runAll (count : Nat) (s : Editing Document) :
    undo count s = runAll (undoCalls count s.doc.log) s := by
  unfold undoCalls
  rw [← List.singleton_append, runAll_append, runAll_singleton,
    ← forM_eq_runAll undoUnit unitCalls undoUnit_eq_runAll]
  rfl

end Document

end EditHistory
