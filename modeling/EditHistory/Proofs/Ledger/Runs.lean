/-
Runs of a ledger, and the changes that begin in them.

A run is what is done with a ledger while one recorder serves it: documents make requests,
logs are truncated and used by themselves, and the recorder gets other settings or another
hook.  Its past lists the occasions, newest first, so what holds of every run is shown by
adding one occasion on top.

What is said of a past here has one shape: something happened, and since then something else
has not.  `Since` says that, and `since_cons` is all that is needed of it.

A recording call begins a change before it puts anything in the log, and some begin it
twice.  All that a change does when it begins shows in four places, the `Signals`, and
doing it twice is doing it once.  So `signals_after` says of a request only whether it
begins a change.
-/
import EditHistory.Proofs.Ledger.FirstChanges

namespace EditHistory

open Recording (Request)

namespace Recording

variable {v : View} {r : Recording} {request : Request}

/-! ### Beginning a change -/

/-- What shows that a change has begun. -/
structure Signals where
  /-- The document with an open unit. -/
  pending : Option DocId
  /-- The change of this document has been announced. -/
  announced : Bool
  listening : Bool
  sent : List DocId

/-- The signals of a recording. -/
def signals (r : Recording) : Signals where
  pending := r.recorder.pending
  announced := r.log.announced
  listening := r.recorder.listening
  sent := r.recorder.sent

namespace Signals

/-- The notice that is sent when a change of the document begins. -/
def notices (doc : DocId) (s : Signals) : List DocId :=
  if s.listening = true ∧ s.announced = false then [doc] else []

/-- The signals once a change of the document has begun. -/
def begun (doc : DocId) (s : Signals) : Signals :=
  { s with pending := some doc, announced := true, sent := s.sent ++ s.notices doc }

/-- Beginning a change again shows nowhere. -/
theorem begun_begun (doc : DocId) (s : Signals) : (s.begun doc).begun doc = s.begun doc := by
  have hnone : (s.begun doc).notices doc = [] := if_neg (by simp [begun])
  unfold begun at hnone ⊢
  rw [hnone, List.append_nil]

end Signals

theorem signals_beginChange (v : View) (r : Recording) :
    (r.beginChange v).signals = r.signals.begun v.doc := by
  obtain ⟨⟨settings, lastBoundary, pending, hook, listening, sent⟩, log⟩ := r
  unfold beginChange Recorder.notify signals Signals.begun Signals.notices
  dsimp only
  cases hannounced : log.announced <;> cases listening <;> simp [hannounced]

@[simp] theorem signals_push (e : Entry) (r : Recording) : (r.push e).signals = r.signals := rfl

theorem signals_foldl_push {α : Type} (f : α → Entry) (l : List α) :
    ∀ r : Recording, (l.foldl (fun r a => r.push (f a)) r).signals = r.signals := by
  induction l with
  | nil => exact fun _ => rfl
  | cons a rest ih => exact fun r => ih (r.push (f a))

@[simp] theorem signals_noteFirstChange (v : View) (r : Recording) :
    (r.noteFirstChange v).signals = r.signals := by
  unfold noteFirstChange
  split <;> rfl

@[simp] theorem signals_extendInsertion (start stop : Nat) (r : Recording) :
    (r.extendInsertion start stop).signals = r.signals := by
  unfold extendInsertion
  split
  · split <;> rfl
  · rfl

/-- A change of the text begins with its preamble, if points are recorded. -/
theorem signals_notePoint (v : View) (pos : Nat) (r : Recording) :
    (r.notePoint v pos).signals
      = if r.recorder.settings.inhibitPoint then r.signals else r.signals.begun v.doc := by
  have hnoted : ((r.beginChange v).noteFirstChange v).signals = r.signals.begun v.doc := by
    rw [signals_noteFirstChange, signals_beginChange]
  unfold notePoint
  split
  · rfl
  · dsimp only
    split
    · split
      · exact hnoted
      · rw [signals_push, hnoted]
    · exact hnoted

theorem signals_afterInsert (v : View) (start length : Nat) (r : Recording) :
    (r.afterInsert v start length).signals
      = if r.recorder.settings.inhibitPoint then r.signals else r.signals.begun v.doc := by
  unfold afterInsert
  rw [signals_extendInsertion, signals_notePoint]

theorem signals_afterDelete (v : View) (start : Nat) (text : Text) (withMarkers : Bool)
    (r : Recording) :
    (r.afterDelete v start text withMarkers).signals
      = if withMarkers = true ∨ r.recorder.settings.inhibitPoint = false then
          r.signals.begun v.doc else r.signals := by
  unfold afterDelete
  dsimp only
  rw [signals_push, signals_foldl_push (fun m : MarkerId × Int => .markerShift m.1 m.2)]
  have hnoted := signals_notePoint v (undonePoint v start (start + text.length)) r
  -- With its markers a deletion begins its change a second time, or without points at last.
  cases withMarkers with
  | false =>
      rw [if_neg Bool.false_ne_true, hnoted]
      cases r.recorder.settings.inhibitPoint <;> simp
  | true =>
      rw [if_pos rfl, if_pos (Or.inl rfl), signals_beginChange, hnoted]
      split
      · rfl
      · exact Signals.begun_begun _ _

/--
The request begins a change.  Changes of text do not while points are not recorded, but for a
deletion with its markers; and a replacement of what cannot be read does not.
-/
def Request.begins (v : View) (settings : Settings) : Request → Bool
  | .insertion .. => !settings.inhibitPoint
  | .deletion _ _ withMarkers => withMarkers || !settings.inhibitPoint
  | .change start length => !settings.inhibitPoint && (v.read start (start + length)).isOk
  | .propertyChange .. => true
  | .firstChange | .boundary => false

/-- A request but for a boundary shows that a change has begun, or leaves the signals alone. -/
theorem Request.signals_after (request : Request) (v : View) (r : Recording)
    (hrequest : request ≠ .boundary) :
    (request.after v r).signals
      = if request.begins v r.recorder.settings then r.signals.begun v.doc else r.signals := by
  cases request with
  | insertion start length =>
      rw [after, begins, signals_afterInsert]
      cases r.recorder.settings.inhibitPoint <;> rfl
  | deletion start text withMarkers =>
      rw [after, begins, signals_afterDelete]
      cases withMarkers <;> cases r.recorder.settings.inhibitPoint <;> rfl
  | change start length =>
      rw [after, begins]
      cases v.read start (start + length) with
      | ok old =>
          have hkeeps := (adds_afterDelete v start old false r).keeps.settings
          dsimp only
          rw [signals_afterInsert, hkeeps, signals_afterDelete]
          cases r.recorder.settings.inhibitPoint with
          | true => rfl
          | false => exact Signals.begun_begun _ _
      | error e => cases r.recorder.settings.inhibitPoint <;> rfl
  | firstChange => exact signals_noteFirstChange v r
  | propertyChange start length name old =>
      rw [after, begins, afterPropertyChange, signals_push, signals_noteFirstChange,
        signals_beginChange]
      rfl
  | boundary => exact absurd rfl hrequest

/-- A boundary sends nothing, and no change can be announced because of it. -/
theorem signals_endUnit (v : View) (r : Recording) :
    (r.endUnit v).signals = { r.signals with pending := (r.endUnit v).recorder.pending } := by
  unfold endUnit
  split
  · rfl
  · cases r.log.atBoundary <;> rfl

end Recording

/-! ### What is done with a ledger -/

/-- An operation of a log. -/
inductive Log.Operation where
  | retain (count : Nat)
  | clear
  | disable
  | enable
  /-- Lets the next change be announced again. -/
  | rearm

/-- Uses a log by the operation. -/
def Log.Operation.run : Log.Operation → Log → Log
  | .retain count => Log.retain count
  | .clear => Log.clear
  | .disable => Log.disable
  | .enable => Log.enable
  | .rearm => Log.rearm

namespace Ledger

variable {l first : Ledger} {id : DocId}

/-- What is done with a ledger while one recorder serves it. -/
inductive Use where
  /-- A document makes a request.  It is known by what it shows of itself. -/
  | record (v : View) (request : Request)
  | truncate (id : DocId)
  | upkeep (id : DocId) (operation : Log.Operation)
  /-- The settings or the hook are changed, or how often truncation is held off. -/
  | configure (settings : Settings) (hook : Option Hook) (depth : Nat)

/-- The ledger afterwards. -/
def Use.after (l : Ledger) : Use → Ledger
  | .record v request => l.record v.doc v request
  | .truncate id => l.truncate id
  | .upkeep id operation => l.setLog id (operation.run (l.logs id))
  | .configure settings hook depth =>
    { l with recorder := { l.recorder with settings, hook }, depth }

/-- Whether a sum that is no machine word ends the run. -/
def Use.ends (l : Ledger) : Use → Bool
  | .record v request => faults (request.call v (l.recording v.doc))
  | _ => false

/-- An occasion: what was done, and with which ledger. -/
structure Occasion where
  before : Ledger
  use : Use

/-- The ledger after the occasion. -/
def Occasion.after (o : Occasion) : Ledger := o.use.after o.before

/-- `first` turns into the other ledger by what was done on the occasions, newest first. -/
inductive Run (first : Ledger) : List Occasion → Ledger → Prop
  | start : Run first [] first
  | next {past : List Occasion} {o : Occasion} (earlier : Run first past o.before)
      (h : o.use.ends o.before = false) : Run first (o :: past) o.after

/-- What is older than an occasion led to it, and it did not end the run. -/
theorem Run.occasion {newer older : List Occasion} {o : Occasion}
    (h : Run first (newer ++ o :: older) l) :
    Run first older o.before ∧ o.use.ends o.before = false := by
  induction newer generalizing l with
  | nil =>
      cases h with
      | next earlier hends => exact ⟨earlier, hends⟩
  | cons o' newer ih =>
      cases h with
      | next earlier hends => exact ih earlier

/-- `P` held on an occasion, and `Q` on every occasion since. -/
def Since (P Q : Occasion → Prop) (past : List Occasion) : Prop :=
  ∃ since o earlier, past = since ++ o :: earlier ∧ P o ∧ ∀ o' ∈ since, Q o'

theorem not_since_nil {P Q : Occasion → Prop} : ¬Since P Q [] := by
  rintro ⟨since, o, earlier, hpast, -⟩
  exact List.append_ne_nil_of_right_ne_nil since (List.cons_ne_nil o earlier) hpast.symm

theorem since_cons {P Q : Occasion → Prop} {o : Occasion} {past : List Occasion} :
    Since P Q (o :: past) ↔ P o ∨ (Q o ∧ Since P Q past) := by
  constructor
  · rintro ⟨since, o', earlier, hpast, hP, hQ⟩
    cases since with
    | nil =>
        obtain ⟨rfl, rfl⟩ := List.cons.inj hpast
        exact Or.inl hP
    | cons newest since =>
        obtain ⟨rfl, rfl⟩ := List.cons.inj hpast
        obtain ⟨hnewest, hsince⟩ := List.forall_mem_cons.mp hQ
        exact Or.inr ⟨hnewest, since, o', earlier, rfl, hP, hsince⟩
  · rintro (hP | ⟨hQ, since, o', earlier, rfl, hP, hsince⟩)
    · exact ⟨[], o, past, rfl, hP, List.forall_mem_nil Q⟩
    · exact ⟨o :: since, o', earlier, rfl, hP, List.forall_mem_cons.mpr ⟨hQ, hsince⟩⟩

/-! ### What a request does to a ledger -/

namespace Occasion

variable {o : Occasion} {v : View} {request : Request}

/-- On the occasion a change of the document begins: its log is on, and it makes a request for one. -/
def Begins (id : DocId) (o : Occasion) : Prop :=
  ∃ v request, o.use = .record v request ∧ v.doc = id ∧
    request.begins v o.before.recorder.settings = true ∧ (o.before.logs id).disabled = false

/-- A request makes what it makes of the recording that it finds, if the log is on. -/
theorem recording_after (huse : o.use = .record v request)
    (hends : o.use.ends o.before = false) :
    o.after.recording v.doc = (o.before.recording v.doc).whenOn
      (request.after v (o.before.recording v.doc)) := by
  have hfault : faults (request.call v (o.before.recording v.doc)) = false := by
    rwa [huse] at hends
  rw [after, huse, ← Request.eq_after_of_endsAt (EndsAt.of_not_faults hfault)]
  exact recording_setRecording _ _ _

/-- It leaves the logs of other documents alone. -/
theorem logs_after_of_ne (huse : o.use = .record v request) (hne : id ≠ v.doc) :
    o.after.logs id = o.before.logs id := by
  rw [after, huse]
  exact if_neg hne

theorem begins_iff (huse : o.use = .record v request) :
    o.Begins id ↔ v.doc = id ∧ request.begins v o.before.recorder.settings = true ∧
      (o.before.logs id).disabled = false := by
  constructor
  · rintro ⟨v', request', huse', h⟩
    cases huse.symm.trans huse'
    exact h
  · exact fun h => ⟨v, request, huse, h⟩

/-- One change begins on an occasion, or none. -/
theorem Begins.unique {other : DocId} (h : o.Begins id) (hother : o.Begins other) : id = other := by
  obtain ⟨v, request, huse, rfl, -⟩ := h
  exact ((begins_iff huse).mp hother).1

/-- Requests alone begin changes. -/
theorem not_begins (h : ∀ v request, o.use ≠ .record v request) : ¬o.Begins id :=
  fun ⟨v, request, huse, _⟩ => h v request huse

/-- A change begins and shows that it has. -/
theorem signals_of_begins (huse : o.use = .record v request)
    (hends : o.use.ends o.before = false) (h : o.Begins v.doc) :
    (o.after.recording v.doc).signals = (o.before.recording v.doc).signals.begun v.doc := by
  obtain ⟨-, hbegins, hon⟩ := (begins_iff huse).mp h
  have hrequest : request ≠ .boundary := by
    rintro rfl
    cases hbegins
  have hlog : (o.before.recording v.doc).log.disabled = false := hon
  have hsettings : (o.before.recording v.doc).recorder.settings = o.before.recorder.settings := rfl
  rw [recording_after huse hends, Recording.whenOn, hlog, if_neg Bool.false_ne_true,
    request.signals_after v _ hrequest, hsettings, hbegins, if_pos rfl]

/-- No change begins, and nothing shows it; a boundary may close a unit. -/
theorem signals_of_not_begins (huse : o.use = .record v request)
    (hends : o.use.ends o.before = false) (h : ¬o.Begins v.doc) :
    (o.after.recording v.doc).signals =
      { (o.before.recording v.doc).signals with pending := o.after.recorder.pending } ∧
      (request ≠ .boundary → o.after.recorder.pending = o.before.recorder.pending) := by
  have hpending : o.after.recorder.pending = (o.after.recording v.doc).recorder.pending := rfl
  rw [hpending, recording_after huse hends, Recording.whenOn]
  cases hon : (o.before.recording v.doc).log.disabled with
  | true => exact ⟨rfl, fun _ => rfl⟩
  | false =>
      have hsame (hrequest : request ≠ .boundary) :
          (request.after v (o.before.recording v.doc)).signals
            = (o.before.recording v.doc).signals := by
        have hbegins : ¬request.begins v (o.before.recording v.doc).recorder.settings = true :=
          fun hbegins => h ((begins_iff huse).mpr ⟨rfl, hbegins, hon⟩)
        rw [request.signals_after v _ hrequest, if_neg hbegins]
      rw [if_neg Bool.false_ne_true]
      refine ⟨?_, fun hrequest => congrArg Recording.Signals.pending (hsame hrequest)⟩
      by_cases hrequest : request = .boundary
      · rw [hrequest]
        exact Recording.signals_endUnit v _
      · rw [hsame hrequest]
        exact congrArg (fun s : Recording.Signals =>
          { (o.before.recording v.doc).signals with pending := s.pending }) (hsame hrequest).symm

/-! ### What else is done with a ledger -/

theorem logs_after_truncate {target : DocId} (huse : o.use = .truncate target) (id : DocId) :
    o.after.logs id = if id = target then (truncateUnder o.before.recorder.hook
      o.before.recorder.settings o.before.depth (o.before.logs target)).log
        else o.before.logs id := by
  rw [after, huse]
  rfl

theorem logs_after_upkeep {target : DocId} {operation : Log.Operation}
    (huse : o.use = .upkeep target operation) (id : DocId) :
    o.after.logs id = if id = target then operation.run (o.before.logs target)
      else o.before.logs id := by
  rw [after, huse]
  rfl

end Occasion

end Ledger

end EditHistory
