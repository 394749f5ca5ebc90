/-
A log grows at its newest end only.

A request puts entries on top of a log, or it is an insertion that goes on where the newest
entry ended and makes that entry longer.  It never does both, and what is below the newest
entry it leaves alone.  An insertion looks at the newest entry when its preamble has been
pushed, so a first change or a point move keeps it apart from what was inserted before, as a
boundary does.

How many entries a request pushes at most depends on its kind, and for a deletion on the
markers in its span.  A replacement is a deletion and an insertion, but it has one preamble.

What one request does composes.  Through any run of requests, whoever makes them and however
the recorder is set up in between, a log `Continues` what it was.
-/
import EditHistory.Proofs.Ledger.FirstChanges

namespace EditHistory

open Recording (Request)

/-- The markers in the span from `start` up to `stop`, or at one of its ends. -/
def View.markersWithin (start stop : Nat) (v : View) : List (MarkerId × Marker) :=
  v.markers.filter fun (_, m) => start ≤ m.position ∧ m.position ≤ stop

namespace Recording

variable {v : View} {r r' : Recording} {request : Request} {new : List Entry}

/-! ### How many entries are pushed -/

theorem length_firstChanges_le (v : View) (r : Recording) : (firstChanges v r).length ≤ 1 := by
  unfold firstChanges
  split
  · exact Nat.le_refl 1
  · exact Nat.zero_le 1

theorem length_pointMoves_le (v : View) (pos : Nat) (r : Recording) :
    (pointMoves v pos r).length ≤ 1 := by
  unfold pointMoves
  split
  · split
    · exact Nat.zero_le 1
    · exact Nat.le_refl 1
  · exact Nat.zero_le 1

theorem length_preamble_le (v : View) (pos : Nat) (r : Recording) :
    (preamble v pos r).length ≤ 2 := by
  unfold preamble
  split
  · exact Nat.zero_le 2
  · rw [List.length_append]
    exact Nat.add_le_add (length_pointMoves_le v pos r) (length_firstChanges_le v r)

/-- A marker in the span is recorded once at most, and not at all if it is not displaced. -/
theorem length_shifts_le (v : View) (start stop : Nat) (withMarkers : Bool) :
    (shifts v start stop withMarkers).length
      ≤ if withMarkers then (v.markersWithin start stop).length else 0 := by
  unfold shifts moved
  rw [List.length_reverse, List.length_map]
  refine Nat.le_trans (List.length_filter_le _ _) ?_
  cases withMarkers with
  | false => exact Nat.le_refl 0
  | true =>
      rw [if_pos rfl, if_pos rfl, displacements, List.length_map]
      exact Nat.le_refl _

theorem length_closing_le (r : Recording) : (closing r).length ≤ 1 := by
  unfold closing
  split
  · exact Nat.zero_le 1
  · exact Nat.le_refl 1

/-- How many entries the request pushes at most. -/
def Request.mostPushed (v : View) : Request → Nat
  | .insertion .. => 3
  | .deletion start text withMarkers =>
    3 + if withMarkers then (v.markersWithin start (start + text.length)).length else 0
  | .change .. => 4
  | .propertyChange .. => 2
  | .firstChange | .boundary => 1

/-! ### What one request does to the entries -/

/--
What a request may make of the entries of a log.  Either it pushes some, no more than it may;
or it is an insertion that starts where the newest entry, an insertion, stopped.
-/
inductive Request.Appends (v : View) (r : Recording) : Request → List Entry → Prop
  | pushed {request : Request} (newer : List Entry) (h : newer.length ≤ request.mostPushed v) :
      Appends v r request (newer ++ r.log.entries)
  /-- The newest entry gets longer, and nothing is pushed, for there was nothing to note. -/
  | lengthened {older : List Entry} (first start length : Nat)
      (h : r.log.entries = .insertion first start :: older) (hnone : preamble v start r = []) :
      Appends v r (.insertion start length) (.insertion first (start + length) :: older)

theorem Request.Appends.unchanged (v : View) (r : Recording) (request : Request) :
    request.Appends v r r.log.entries := .pushed [] (Nat.zero_le _)

theorem Adds.appends (h : Adds new r r') (hcount : new.length ≤ request.mostPushed v) :
    request.Appends v r r'.log.entries := by
  rw [h.entries]
  exact .pushed new hcount

theorem appends_afterInsert (v : View) (start length : Nat) (r : Recording) :
    (Request.insertion start length).Appends v r (r.afterInsert v start length).log.entries := by
  rcases adds_or_lengthens_afterInsert v start length r with hadds | ⟨first, older, hold, hnew, -⟩
  · exact hadds.appends (Nat.succ_le_succ (length_preamble_le v start r))
  · have hnone : preamble v start r = [] := by
      -- With a preamble on top of it the newest entry would not have been found.
      rcases grows_afterInsert v start length r with hgrows | ⟨hnone, -⟩
      · have hlength := hgrows.length_eq
        rw [hold, hnew, List.length_cons, List.length_cons, List.length_cons] at hlength
        omega
      · exact hnone
    rw [hnew]
    exact .lengthened first start length hold hnone

theorem appends_afterDelete (v : View) (start : Nat) (text : Text) (withMarkers : Bool)
    (r : Recording) :
    (Request.deletion start text withMarkers).Appends v r
      (r.afterDelete v start text withMarkers).log.entries := by
  have hpreamble := length_preamble_le v (undonePoint v start (start + text.length)) r
  have hshifts := length_shifts_le v start (start + text.length) withMarkers
  refine (adds_afterDelete v start text withMarkers r).appends ?_
  rw [List.length_cons, List.length_append, Request.mostPushed]
  omega

/-- The insertion that is part of a replacement finds a deletion, and has no preamble. -/
theorem appends_afterDelete_afterInsert (v : View) (start : Nat) (text : Text) (length : Nat)
    (r : Recording) :
    (Request.change start length).Appends v r
      ((r.afterDelete v start text false).afterInsert v start length).log.entries := by
  have hpreamble := length_preamble_le v (undonePoint v start (start + text.length)) r
  have hshifts : shifts v start (start + text.length) false = [] := rfl
  have hdelete := adds_afterDelete v start text false r
  rw [hshifts, List.nil_append] at hdelete
  refine (hdelete.trans
    (adds_afterInsert_afterDelete v start text false start length r)).appends ?_
  exact Nat.succ_le_succ (Nat.succ_le_succ hpreamble)

theorem Request.appends_after (request : Request) (v : View) (r : Recording) :
    request.Appends v r (request.after v r).log.entries := by
  cases request with
  | insertion start length => exact appends_afterInsert v start length r
  | deletion start text withMarkers => exact appends_afterDelete v start text withMarkers r
  | change start length =>
      rw [after]
      cases v.read start (start + length) with
      | ok old => exact appends_afterDelete_afterInsert v start old length r
      | error e => exact .unchanged v r _
  | firstChange => exact (adds_noteFirstChange v r).appends (length_firstChanges_le v r)
  | propertyChange start length name old =>
      exact (adds_afterPropertyChange v start length name old r).appends
        (Nat.succ_le_succ (length_firstChanges_le v r))
  | boundary =>
      rw [after]
      cases hon : r.log.disabled with
      | true =>
          rw [endUnit, if_pos hon]
          exact .unchanged v r _
      | false =>
          rw [entries_endUnit v hon]
          exact .pushed _ (length_closing_le r)

/-- However a request ends, but for a fault: a log that is off is left alone. -/
theorem Request.appends_of_endsAt (hends : EndsAt (request.call v) r r') :
    request.Appends v r r'.log.entries := by
  rw [eq_after_of_endsAt hends, whenOn]
  split
  · exact .unchanged v r _
  · exact request.appends_after v r

end Recording

/-! ### Runs -/

/-- `e'` is `e` or, if that is an insertion, one that starts with it and stops no earlier. -/
inductive Entry.Lengthens : (e e' : Entry) → Prop
  | refl (e : Entry) : Lengthens e e
  | insertion (first : Nat) {stop stop' : Nat} (h : stop ≤ stop') :
      Lengthens (.insertion first stop) (.insertion first stop')

theorem Entry.Lengthens.trans {e e' e'' : Entry} (h : e.Lengthens e') (h' : e'.Lengthens e'') :
    e.Lengthens e'' := by
  cases h with
  | refl => exact h'
  | insertion first hle =>
      cases h' with
      | refl => exact .insertion first hle
      | insertion _ hle' => exact .insertion first (Nat.le_trans hle hle')

/--
`new` continues `old`: the entries of `old` are the oldest of `new`, but that the newest of
them may have become longer.
-/
def Log.Continues (old new : List Entry) : Prop :=
  ∀ e older, old = e :: older → ∃ newer e', new = newer ++ e' :: older ∧ e.Lengthens e'

namespace Log.Continues

variable {old new newest : List Entry} {v : View} {r : Recording} {request : Request}

theorem pushed (newer old : List Entry) : Continues old (newer ++ old) := by
  rintro e older rfl
  exact ⟨newer, e, rfl, .refl e⟩

theorem refl (old : List Entry) : Continues old old := pushed [] old

theorem trans (h : Continues old new) (h' : Continues new newest) : Continues old newest := by
  intro e older hold
  obtain ⟨newer, e', hnew, hlengthens⟩ := h e older hold
  -- Only while nothing is on top of the entry can it get longer again.
  cases newer with
  | nil =>
      obtain ⟨newer', e'', hnewest, hlengthens'⟩ := h' e' older hnew
      exact ⟨newer', e'', hnewest, hlengthens.trans hlengthens'⟩
  | cons top newer =>
      obtain ⟨newer', top', hnewest, -⟩ := h' top (newer ++ e' :: older) hnew
      refine ⟨newer' ++ top' :: newer, e', ?_, hlengthens⟩
      rw [hnewest, List.append_assoc, List.cons_append]

theorem of_appends (h : request.Appends v r new) : Continues r.log.entries new := by
  cases h with
  | pushed newer _ => exact .pushed newer _
  | lengthened first start length hold _ =>
      intro e older hcons
      obtain ⟨rfl, rfl⟩ := List.cons.inj (hold.symm.trans hcons)
      exact ⟨[], _, rfl, .insertion first (Nat.le_add_right start length)⟩

end Log.Continues

namespace Ledger

variable {l l' : Ledger}

/-- `l` turns into the other ledger by requests, and by the recorder being set up anew. -/
inductive Recorded (l : Ledger) : Ledger → Prop
  | refl : Recorded l l
  /-- A document, whatever it shows of itself, makes a request that does not end the run. -/
  | record {l' : Ledger} (id : DocId) (v : View) (request : Request)
      (h : faults (request.call v (l'.recording id)) = false) (hrecorded : Recorded l l') :
      Recorded l (l'.record id v request)
  | configure {l' : Ledger} (recorder : Recorder) (depth : Nat) (hrecorded : Recorded l l') :
      Recorded l { l' with recorder, depth }

/-- Whatever is recorded, and by whom: every log continues what it was. -/
theorem Recorded.continues (h : l.Recorded l') (id : DocId) :
    Log.Continues (l.logs id).entries (l'.logs id).entries := by
  induction h with
  | refl => exact .refl _
  | configure recorder depth _ ih => exact ih
  | @record l' target v request hfault _ ih =>
      have happends := Recording.Request.appends_of_endsAt (EndsAt.of_not_faults hfault)
      refine ih.trans ?_
      by_cases hid : id = target
      · subst hid
        rw [Ledger.record, logs_setRecording_self]
        exact .of_appends happends
      · have hother : (l'.record target v request).logs id = l'.logs id := if_neg hid
        rw [hother]
        exact .refl _

end Ledger

/--
**A log grows at its newest end only.**  A request that does not end in a fault pushes entries
on top of the log, no more than a request of its kind may; or it is an insertion that starts
where the newest entry, an insertion, stopped, with nothing to be noted before it, and all it
does is to make that longer.  So through any run of requests no log loses an entry, and none
but its newest is altered.
-/
theorem requests_append :
    (∀ (request : Request) (v : View) (r r' : Recording), EndsAt (request.call v) r r' →
      request.Appends v r r'.log.entries) ∧
    ∀ (l l' : Ledger), l.Recorded l' → ∀ id,
      Log.Continues (l.logs id).entries (l'.logs id).entries :=
  ⟨fun _ _ _ _ hends => Recording.Request.appends_of_endsAt hends,
    fun _ _ hrecorded id => hrecorded.continues id⟩

/--
A deletion that pushes as much as it may, the displacement of one marker with it; and an
insertion in two pieces, of which the second makes the first longer.
-/
theorem requests_append_deletion :
    let opened := Ledger.record ⟨0⟩ (Ledger.abcView 0) .boundary {}
    let deletion : Request := .deletion 1 ['b', 'c'] true
    let typed := (Ledger.record ⟨0⟩ (Ledger.abcView 0) (.insertion 0 2) {}).record ⟨0⟩
      (Ledger.abcView 2) (.insertion 2 1)
    (∃ r', EndsAt (deletion.call (Ledger.abcView 3)) (opened.recording ⟨0⟩) r' ∧
      deletion.Appends (Ledger.abcView 3) (opened.recording ⟨0⟩) r'.log.entries ∧
      r'.log.entries.length = deletion.mostPushed (Ledger.abcView 3)) ∧
    Log.Continues ((Ledger.record ⟨0⟩ (Ledger.abcView 0) (.insertion 0 2) {}).logs ⟨0⟩).entries
      (typed.logs ⟨0⟩).entries ∧
    (typed.logs ⟨0⟩).entries = [.insertion 0 3, .firstChange none] := by
  intro opened deletion typed
  refine ⟨?_, ?_, by decide +kernel⟩
  · have hends : EndsAt (deletion.call (Ledger.abcView 3)) (opened.recording ⟨0⟩) _ :=
      EndsAt.of_not_faults (by decide +kernel)
    exact ⟨_, hends, requests_append.1 deletion (Ledger.abcView 3) _ _ hends, by decide +kernel⟩
  · exact requests_append.2 _ typed (.record ⟨0⟩ _ _ (by decide +kernel) .refl) ⟨0⟩

end EditHistory
