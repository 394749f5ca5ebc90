/-
The open unit that a recorder remembers is open.

The recorder remembers one document, `pending`, of which it says that a unit is open in its
log.  All documents share that one place: whichever begins a change takes it, and only its own
boundary gives it up.  Two facts keep what it says true.  A change that begins always leaves
something in the log that is no boundary, because every request that begins one also puts an
entry on top, or lengthens the one that is there.  And what else can happen to a log does not
close its unit without saying so: a boundary of another document is in another log, and a
truncation that asks nobody cuts behind a boundary.

So where `pending` names a document, that document's change was the latest to begin, and no
boundary has been pushed to its log since.  That is `pending_after` for one occasion, and
`since_cons` carries it through a run.
-/
import EditHistory.Proofs.Ledger.Runs
import EditHistory.Proofs.Ledger.SwitchedOff
import EditHistory.Proofs.Session.Typing

namespace EditHistory

open Recording (Request)

namespace Recording

variable {v : View} {r : Recording} {request : Request}

/--
A request but for a boundary leaves a unit open; or it begins no change and the log is what
it was.
-/
theorem Request.open_after (hrequest : request ≠ .boundary) :
    (request.after v r).log.atBoundary = false ∨
      ((request.after v r).log = r.log ∧ request.begins v r.recorder.settings = false) := by
  have hinserted (start length : Nat) (r : Recording) :
      (r.afterInsert v start length).log.atBoundary = false := by
    obtain ⟨first, older, hextend⟩ := extendInsertion_eq start (r.notePoint v start)
    rw [afterInsert, hextend]
    rfl
  cases request with
  | insertion start length => exact Or.inl (hinserted start length r)
  | deletion start text withMarkers => exact Or.inl rfl
  | change start length =>
      rw [after, begins]
      cases v.read start (start + length) with
      | ok old => exact Or.inl (hinserted start length _)
      | error e => exact Or.inr ⟨rfl, Bool.and_false _⟩
  | firstChange =>
      by_cases h : Unnoted v r
      · rw [after, noteFirstChange_of_unnoted h]
        exact Or.inl rfl
      · exact Or.inr ⟨congrArg Recording.log (noteFirstChange_of_noted h), rfl⟩
  | propertyChange start length name old => exact Or.inl rfl
  | boundary => exact absurd rfl hrequest

end Recording

/-- A truncation that asks nobody neither closes a unit nor opens one. -/
theorem atBoundary_truncateUnder_none (settings : Settings) (depth : Nat) (log : Log) :
    (truncateUnder none settings depth log).log.disabled = log.disabled ∧
      (truncateUnder none settings depth log).log.atBoundary = log.atBoundary := by
  obtain ⟨keep, hkept, hends⟩ := exists_retain_truncateUnder settings depth log
  rw [hkept]
  exact ⟨rfl, Log.atBoundary_retain hends⟩

namespace Ledger

variable {first l : Ledger} {id : DocId} {past : List Occasion}

/-- Where a unit is remembered as open, one is. -/
def PendingIsOpen (l : Ledger) : Prop :=
  ∀ id, l.recorder.pending = some id →
    (l.logs id).disabled = false ∧ (l.logs id).atBoundary = false

namespace Occasion

variable {o : Occasion} {v : View} {request : Request}

/--
No log is switched off, emptied or shortened on the occasion, unless it is truncated and
nobody is asked.
-/
def IsPlain (o : Occasion) : Prop :=
  match o.use with
  | .record .. | .configure .. => True
  | .truncate _ => o.before.recorder.hook = none
  | .upkeep _ operation => operation = .enable ∨ operation = .rearm

/-- On the occasion a boundary is pushed to the log of the document. -/
def Closes (id : DocId) (o : Occasion) : Prop :=
  (o.after.logs id).entries = .boundary :: (o.before.logs id).entries

theorem not_closes_of_open (h : (o.after.logs id).atBoundary = false) : ¬o.Closes id := by
  intro hcloses
  rw [Log.atBoundary_iff.mpr (Or.inr ⟨_, hcloses⟩)] at h
  cases h

/-- A request that does not find the log off makes of it what it makes of its recording. -/
theorem log_after (huse : o.use = .record v request) (hends : o.use.ends o.before = false)
    (hon : (o.before.logs v.doc).disabled = false) :
    o.after.logs v.doc = (request.after v (o.before.recording v.doc)).log := by
  have hafter := recording_after huse hends
  have hlog : (o.before.recording v.doc).log.disabled = false := hon
  rw [Recording.whenOn, hlog, if_neg Bool.false_ne_true] at hafter
  exact congrArg Recording.log hafter

/-- What is no request neither closes nor opens a unit on a plain occasion. -/
theorem kept_of_not_record (hplain : o.IsPlain) (hrecord : ∀ v request, o.use ≠ .record v request)
    (id : DocId) :
    ((o.before.logs id).disabled = false → (o.after.logs id).disabled = false) ∧
      (o.after.logs id).atBoundary = (o.before.logs id).atBoundary := by
  unfold IsPlain at hplain
  cases huse : o.use with
  | record v request => exact absurd huse (hrecord v request)
  | truncate target =>
      rw [huse] at hplain
      rw [logs_after_truncate huse, hplain]
      split
      · rename_i hid
        obtain ⟨hdisabled, hat⟩ := atBoundary_truncateUnder_none o.before.recorder.settings
          o.before.depth (o.before.logs target)
        rw [hid, hdisabled, hat]
        exact ⟨fun hon => hon, rfl⟩
      · exact ⟨fun hon => hon, rfl⟩
  | upkeep target operation =>
      rw [huse] at hplain
      rw [logs_after_upkeep huse]
      split
      · rename_i hid
        rw [hid]
        obtain rfl | rfl := hplain
        · exact ⟨fun _ => rfl, rfl⟩
        · exact ⟨fun hon => hon, rfl⟩
      · exact ⟨fun hon => hon, rfl⟩
  | configure settings hook depth =>
      rw [after, huse]
      exact ⟨fun hon => hon, rfl⟩

/-- On a plain occasion no log is switched off. -/
theorem enabled_after (hplain : o.IsPlain) (hends : o.use.ends o.before = false)
    (hon : (o.before.logs id).disabled = false) : (o.after.logs id).disabled = false := by
  by_cases hrecord : ∃ v request, o.use = .record v request
  · obtain ⟨v, request, huse⟩ := hrecord
    by_cases hid : id = v.doc
    · subst hid
      rw [huse] at hends
      have hafter := request.maintains_enabled v _ _ (EndsAt.of_not_faults hends) hon
      rwa [after, huse, Use.after, record, logs_setRecording_self]
    · rwa [logs_after_of_ne huse hid]
  · exact (kept_of_not_record hplain (fun v request h => hrecord ⟨v, request, h⟩) id).1 hon

/-- Where a change begins a unit is open. -/
theorem open_of_begins (hends : o.use.ends o.before = false) (h : o.Begins id) :
    (o.after.logs id).atBoundary = false := by
  obtain ⟨v, request, huse, rfl, hbegins, hon⟩ := h
  have hrequest : request ≠ .boundary := by
    rintro rfl
    cases hbegins
  rw [log_after huse hends hon]
  obtain hopen | ⟨-, hnot⟩ := Request.open_after (v := v) (r := o.before.recording v.doc) hrequest
  · exact hopen
  · cases hbegins.symm.trans hnot

/-- On a plain occasion a unit that is open stays open, but for a boundary of its document. -/
theorem still_open (hplain : o.IsPlain) (hends : o.use.ends o.before = false)
    (hboundary : ∀ v, o.use = .record v .boundary → id ≠ v.doc)
    (hon : (o.before.logs id).disabled = false) (hopen : (o.before.logs id).atBoundary = false) :
    (o.after.logs id).atBoundary = false := by
  by_cases hrecord : ∃ v request, o.use = .record v request
  · obtain ⟨v, request, huse⟩ := hrecord
    by_cases hid : id = v.doc
    · subst hid
      have hrequest : request ≠ .boundary := by
        rintro rfl
        exact hboundary v huse rfl
      rw [log_after huse hends hon]
      obtain h | ⟨hsame, -⟩ := Request.open_after (v := v) (r := o.before.recording v.doc) hrequest
      · exact h
      · rw [hsame]
        exact hopen
    · rwa [logs_after_of_ne huse hid]
  · exact (kept_of_not_record hplain (fun v request h => hrecord ⟨v, request, h⟩) id).2.trans hopen

/-- A boundary gives up what is remembered of its own document, and pushes itself to the log. -/
theorem closed_after (huse : o.use = .record v .boundary) (hopen : o.before.PendingIsOpen) :
    (o.after.recorder.pending
      = if o.before.recorder.pending = some v.doc then none else o.before.recorder.pending) ∧
    (o.before.recorder.pending = some v.doc → o.Closes v.doc) := by
  have hends : o.use.ends o.before = false := by
    rw [huse]
    rfl
  have hafter := recording_after huse hends
  have hpending : o.after.recorder.pending = (o.after.recording v.doc).recorder.pending := rfl
  have hlog : o.after.logs v.doc = (o.after.recording v.doc).log := rfl
  rw [Closes, hpending, hlog, hafter, Recording.whenOn]
  cases hon : (o.before.recording v.doc).log.disabled with
  | true =>
      have hnot : o.before.recorder.pending ≠ some v.doc := by
        intro h
        exact absurd ((hopen v.doc h).1.symm.trans hon) Bool.false_ne_true
      rw [if_pos rfl, if_neg hnot]
      exact ⟨rfl, fun h => absurd h hnot⟩
  | false =>
      rw [if_neg Bool.false_ne_true, Request.after, Recording.endUnit, hon]
      cases hat : (o.before.recording v.doc).log.atBoundary with
      | true =>
          have hnot : o.before.recorder.pending ≠ some v.doc := by
            intro h
            exact absurd ((hopen v.doc h).2.symm.trans hat) Bool.false_ne_true
          rw [if_neg hnot]
          exact ⟨rfl, fun h => absurd h hnot⟩
      | false => exact ⟨rfl, fun _ => rfl⟩

/-- What is not a boundary and begins no change leaves alone what is remembered. -/
theorem pending_of_not_begins (hends : o.use.ends o.before = false)
    (hboundary : ∀ v, o.use ≠ .record v .boundary) (hbegins : ∀ id, ¬o.Begins id) :
    o.after.recorder.pending = o.before.recorder.pending := by
  cases huse : o.use with
  | record v request =>
      refine (signals_of_not_begins huse hends (hbegins v.doc)).2 ?_
      rintro rfl
      exact hboundary v huse
  | truncate target =>
      rw [after, huse]
      rfl
  | upkeep target operation =>
      rw [after, huse]
      rfl
  | configure settings hook depth =>
      rw [after, huse]
      rfl

/-- Where a change begins its document is remembered, and no other. -/
theorem pending_of_begins {other : DocId} (hends : o.use.ends o.before = false)
    (h : o.Begins other) : o.after.recorder.pending = some id ↔ o.Begins id := by
  have hbegins := h
  obtain ⟨v, request, huse, rfl, -⟩ := hbegins
  have hpending : o.after.recorder.pending = some v.doc :=
    congrArg Recording.Signals.pending (signals_of_begins huse hends h)
  rw [hpending]
  constructor
  · rintro ⟨rfl⟩
    exact h
  · exact fun hid => congrArg some (h.unique hid)

/-- Where none begins a document is remembered until a boundary is pushed to its log. -/
theorem pending_of_none_begins (hplain : o.IsPlain) (hends : o.use.ends o.before = false)
    (hopen : o.before.PendingIsOpen) (hnone : ∀ other, ¬o.Begins other) :
    o.after.recorder.pending = some id ↔ ¬o.Closes id ∧ o.before.recorder.pending = some id := by
  have hstill (hother : ∀ v, o.use = .record v .boundary → id ≠ v.doc)
      (h : o.before.recorder.pending = some id) : ¬o.Closes id := by
    obtain ⟨hon, hat⟩ := hopen id h
    exact not_closes_of_open (still_open hplain hends hother hon hat)
  by_cases hboundary : ∃ v, o.use = .record v .boundary
  · obtain ⟨v, huse⟩ := hboundary
    obtain ⟨hpending, hcloses⟩ := closed_after huse hopen
    rw [hpending]
    by_cases hown : o.before.recorder.pending = some v.doc
    · rw [if_pos hown, hown]
      constructor
      · rintro ⟨⟩
      · rintro ⟨hnot, ⟨rfl⟩⟩
        exact absurd (hcloses hown) hnot
    · rw [if_neg hown]
      refine ⟨fun h => ⟨hstill ?_ h, h⟩, fun h => h.2⟩
      rintro v' huse' rfl
      cases huse.symm.trans huse'
      exact hown h
  · have hno : ∀ v, o.use ≠ .record v .boundary := fun v h => hboundary ⟨v, h⟩
    rw [pending_of_not_begins hends hno hnone]
    exact ⟨fun h => ⟨hstill (fun v huse => absurd huse (hno v)) h, h⟩, fun h => h.2⟩

/--
A document is remembered if its change began on the occasion; or if it was remembered, no
change of any document began, and no boundary was pushed to its log.
-/
theorem pending_after (hplain : o.IsPlain) (hends : o.use.ends o.before = false)
    (hopen : o.before.PendingIsOpen) :
    o.after.recorder.pending = some id ↔
      o.Begins id ∨ (((∀ other, ¬o.Begins other) ∧ ¬o.Closes id) ∧
        o.before.recorder.pending = some id) := by
  by_cases hbegins : ∃ other, o.Begins other
  · obtain ⟨other, hother⟩ := hbegins
    rw [pending_of_begins hends hother]
    exact (or_iff_left fun h => h.1.1 other hother).symm
  · have hnone : ∀ other, ¬o.Begins other := fun other h => hbegins ⟨other, h⟩
    rw [pending_of_none_begins hplain hends hopen hnone, or_iff_right (hnone id), and_assoc,
      and_iff_right hnone]

/-- What is remembered is still open afterwards. -/
theorem pendingIsOpen_after (hplain : o.IsPlain) (hends : o.use.ends o.before = false)
    (hopen : o.before.PendingIsOpen) : o.after.PendingIsOpen := by
  intro id hpending
  rcases (pending_after hplain hends hopen).mp hpending with hbegins | ⟨⟨hnone, hcloses⟩, hbefore⟩
  · have hon : (o.before.logs id).disabled = false := by
      obtain ⟨v, request, -, -, -, hon⟩ := hbegins
      exact hon
    exact ⟨enabled_after hplain hends hon, open_of_begins hends hbegins⟩
  · obtain ⟨hon, hat⟩ := hopen id hbefore
    refine ⟨enabled_after hplain hends hon, still_open hplain hends ?_ hon hat⟩
    rintro v huse rfl
    exact hcloses ((closed_after huse hopen).2 hbefore)

end Occasion

/-! ### A whole run -/

theorem Run.pendingIsOpen (h : Run first past l) (hplain : ∀ o ∈ past, o.IsPlain)
    (hfirst : first.recorder.pending = none) : l.PendingIsOpen := by
  induction h with
  | start =>
      intro id h
      cases hfirst.symm.trans h
  | next earlier hends ih =>
      obtain ⟨ho, hpast⟩ := List.forall_mem_cons.mp hplain
      exact Occasion.pendingIsOpen_after ho hends (ih hpast)

/-- The document that is remembered is that of the latest change, if no boundary was pushed to it. -/
theorem Run.pending_iff (h : Run first past l) (hplain : ∀ o ∈ past, o.IsPlain)
    (hfirst : first.recorder.pending = none) :
    l.recorder.pending = some id ↔ Since (Occasion.Begins id)
      (fun o => (∀ other, ¬o.Begins other) ∧ ¬o.Closes id) past := by
  induction h with
  | start => simp [hfirst, not_since_nil]
  | next earlier hends ih =>
      obtain ⟨ho, hpast⟩ := List.forall_mem_cons.mp hplain
      rw [since_cons, ← ih hpast]
      exact Occasion.pending_after ho hends (earlier.pendingIsOpen hpast hfirst)

/--
**The open unit that is remembered is open.**  Let documents make any requests, let logs be
truncated where nobody is asked, and the recorder be set up anew; no log is switched off or
emptied by itself, and no unit is remembered to begin with.  Then the log of the document that
is remembered is not empty, and its newest entry is no boundary.  It is the document of the
latest change that began, unless a boundary has been pushed to its log since.  After a boundary
its own document is not remembered, and another one is remembered if it was before.
-/
theorem pending_unit_is_open (h : Run first past l) (hplain : ∀ o ∈ past, o.IsPlain)
    (hfirst : first.recorder.pending = none) :
    (∀ id, l.recorder.pending = some id →
      ∃ e older, (l.logs id).entries = e :: older ∧ e ≠ .boundary) ∧
    (∀ id, l.recorder.pending = some id ↔ Since (Occasion.Begins id)
      (fun o => (∀ other, ¬o.Begins other) ∧ ¬o.Closes id) past) ∧
    (∀ v, let closed := (Use.record v .boundary).after l
      closed.recorder.pending ≠ some v.doc ∧
        ∀ other ≠ v.doc, closed.recorder.pending = some other ↔
          l.recorder.pending = some other) := by
  have hopen := h.pendingIsOpen hplain hfirst
  refine ⟨fun id hpending => ?_, fun id => h.pending_iff hplain hfirst, fun v => ?_⟩
  · have hat := (hopen id hpending).2
    cases hentries : (l.logs id).entries with
    | nil => rw [Log.atBoundary_iff.mpr (Or.inl hentries)] at hat; cases hat
    | cons e older =>
        refine ⟨e, older, rfl, ?_⟩
        rintro rfl
        rw [Log.atBoundary_iff.mpr (Or.inr ⟨older, hentries⟩)] at hat
        cases hat
  · have hafter := (Occasion.closed_after (o := ⟨l, .record v .boundary⟩) rfl hopen).1
    intro closed
    have hclosed : closed.recorder.pending
        = if l.recorder.pending = some v.doc then none else l.recorder.pending := hafter
    rw [hclosed]
    split
    · rename_i hown
      refine ⟨nofun, fun other hother => ?_⟩
      rw [hown]
      exact ⟨nofun, fun h => absurd (Option.some.inj h).symm hother⟩
    · rename_i hown
      exact ⟨hown, fun other _ => Iff.rfl⟩

/--
Two documents begin changes in turn, and the boundary of the first leaves the second alone; a
truncation does too, and only its own boundary gives it up.
-/
theorem pending_unit_is_open_two_documents :
    let other : View := { abcView 0 with doc := ⟨1⟩ }
    let typing : Occasion := { before := {}, use := .record (abcView 0) (.insertion 0 3) }
    let deleting : Occasion :=
      { before := typing.after, use := .record other (.deletion 1 ['b', 'c'] true) }
    let closing : Occasion := { before := deleting.after, use := .record (abcView 0) .boundary }
    let truncating : Occasion := { before := closing.after, use := .truncate ⟨1⟩ }
    let past := [truncating, closing, deleting, typing]
    Run {} past truncating.after ∧ (∀ o ∈ past, o.IsPlain) ∧
      truncating.after.recorder.pending = some ⟨1⟩ ∧
      (∃ e older, (truncating.after.logs ⟨1⟩).entries = e :: older ∧ e ≠ .boundary) ∧
      ((Use.record other .boundary).after truncating.after).recorder.pending ≠ some ⟨1⟩ := by
  intro other typing deleting closing truncating past
  have hrun : Run {} past truncating.after :=
    .next (.next (.next (.next .start (by decide +kernel)) (by decide +kernel)) rfl) rfl
  have hplain : ∀ o ∈ past, o.IsPlain := by
    intro o ho
    obtain rfl | rfl | rfl | rfl : o = truncating ∨ o = closing ∨ o = deleting ∨ o = typing := by
      simpa [past] using ho
    all_goals trivial
  have hpending : truncating.after.recorder.pending = some ⟨1⟩ := by decide +kernel
  obtain ⟨hopen, -, hclosed⟩ := pending_unit_is_open hrun hplain rfl
  exact ⟨hrun, hplain, hpending, hopen ⟨1⟩ hpending, (hclosed other).1⟩

end Ledger

end EditHistory
