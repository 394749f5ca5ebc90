/-
Editing under a recorder.

An editing operation may change three things: the recorder, the markers of the
run, and the document it is applied to.  An operation that is refused half-way
leaves what it had changed by then, so that "a refused operation changes nothing"
is something to prove and not something the types grant.
-/
import EditHistory.Recorder.Recording

namespace EditHistory

/-- What an editing operation may change. -/
structure Editing (δ : Type) where
  recorder : Recorder
  markers : MarkerTable
  doc : δ

/-- An editing operation on a document of type `δ`. -/
abbrev EditM (δ : Type) := EStateM Failure (Editing δ)

/-- Documents whose changes can be recorded: they hold a log and show themselves. -/
class Recordable (δ : Type) where
  log : δ → Log
  setLog : Log → δ → δ
  /-- The document as recording sees it, among the markers of the run. -/
  view : MarkerTable → δ → View

namespace EditM

variable {δ : Type}

/-- Records a change of the document. -/
def record [Recordable δ] (call : View → RecordM Unit) : EditM δ Unit := fun s =>
  let keep (r : Recording) : Editing δ :=
    { s with recorder := r.recorder, doc := Recordable.setLog r.log s.doc }
  match call (Recordable.view s.markers s.doc) { recorder := s.recorder, log := Recordable.log s.doc } with
  | .ok _ r => .ok () (keep r)
  | .error e r => .error e (keep r)

/-- Makes a change that may fail, and then changes nothing. -/
def apply (change : Editing δ → Except Failure (Editing δ)) : EditM δ Unit := fun s =>
  match change s with
  | .ok s' => .ok () s'
  | .error e => .error e s

/-- Changes the document itself. -/
def modifyDoc (f : δ → δ) : EditM δ Unit := modify fun s => { s with doc := f s.doc }

/-- Fails with an overflow unless the condition holds. -/
def require (p : Prop) [Decidable p] : EditM δ Unit :=
  unless p do throw (.fault .overflow)

/-- Reports a failure of the operation in other words. -/
def mapFailure (f : Failure → Failure) (act : EditM δ Unit) : EditM δ Unit := fun s =>
  match act s with
  | .ok _ s' => .ok () s'
  | .error e s' => .error (f e) s'

end EditM

end EditHistory
