/-
Recording beside other documents.

One recorder serves all documents, and what it remembers of the last boundary decides
whether a change is preceded by a point-move entry.  Nothing else that other documents do
can be seen in a log.  So two recordings of the same changes are compared up to their point
moves, and up to the numbers of the markers, which depend on how many markers others have
made: `Log.Parallel`.

A point-move entry at the head of a log would keep the next insertion from lengthening an
older one.  But it is only put where a unit begins, above a boundary or a first-change
entry, and there is nothing to lengthen there either way.  So between the preamble of a
change and its entry the two logs may part in whether they are at a boundary, and never in
which insertion is open: `Log.Beside`.
-/
import EditHistory.Proofs.Alike

namespace EditHistory

/-! ### Logs up to point moves -/

namespace Entry

/-- The entry says where the cursor was. -/
def isMove : Entry → Bool
  | .pointMove _ => true
  | _ => false

/-- The entry, with its marker under another number. -/
def renumbered (number : MarkerId → MarkerId) : Entry → Entry
  | .markerShift marker delta => .markerShift (number marker) delta
  | e => e

/-- Only an entry about a marker can change with the numbers. -/
theorem renumbered_self {number : MarkerId → MarkerId} (e : Entry)
    (h : ∀ marker delta, e = .markerShift marker delta → number marker = marker) :
    e.renumbered number = e := by
  cases e with
  | markerShift marker delta => exact congrArg (Entry.markerShift · delta) (h marker delta rfl)
  | _ => rfl

@[simp] theorem isBoundary_renumbered (number : MarkerId → MarkerId) (e : Entry) :
    (e.renumbered number).isBoundary = e.isBoundary := by
  cases e <;> rfl

end Entry

namespace Log

/-- The log without the entries that say where the cursor was. -/
def withoutMoves (log : Log) : Log := { log with entries := log.entries.filter (!·.isMove) }

/-- The log, with its markers under other numbers. -/
def renumbered (number : MarkerId → MarkerId) (log : Log) : Log :=
  { log with entries := log.entries.map (Entry.renumbered number) }

/-- The stretch of the newest entry, if that is an insertion. -/
def openInsertion? (log : Log) : Option (Nat × Nat) :=
  match log.entries with
  | .insertion start stop :: _ => some (start, stop)
  | _ => none

variable {number : MarkerId → MarkerId} {log log' : Log} {e : Entry}

/-- The logs differ in point moves and the numbers of markers only, and the same insertion is
open in both. -/
structure Beside (number : MarkerId → MarkerId) (log log' : Log) : Prop where
  entries : (log.entries.filter (!·.isMove)).map (Entry.renumbered number)
    = log'.entries.filter (!·.isMove)
  disabled : log.disabled = log'.disabled
  announced : log.announced = log'.announced
  markedTick : log.markedTick = log'.markedTick
  openInsertion : log.openInsertion? = log'.openInsertion?

/-- Besides, both have a unit open, or neither has. -/
structure Parallel (number : MarkerId → MarkerId) (log log' : Log) : Prop
    extends Beside number log log' where
  atBoundary : log.atBoundary = log'.atBoundary

theorem Beside.same (h : Beside number log log') :
    log.withoutMoves.renumbered number = log'.withoutMoves := by
  unfold renumbered withoutMoves
  rw [h.entries, h.disabled, h.announced, h.markedTick]

/-- A log in which no marker gets another number is parallel to itself. -/
theorem parallel_self (h : ∀ e ∈ log.entries, e.renumbered number = e) :
    Parallel number log log where
  entries := by
    refine (List.map_congr_left fun e he => ?_).trans (List.map_id _)
    exact h e (List.mem_filter.mp he).1
  disabled := rfl
  announced := rfl
  markedTick := rfl
  openInsertion := rfl
  atBoundary := rfl

/-- No insertion is open where a unit begins. -/
theorem openInsertion?_of_atBoundary (h : log.atBoundary = true) : log.openInsertion? = none := by
  unfold openInsertion?
  rcases atBoundary_iff.mp h with hentries | ⟨older, hentries⟩ <;> rw [hentries]

theorem openInsertion?_push_renumbered :
    (log.push e).openInsertion? = (log'.push (e.renumbered number)).openInsertion? := by
  cases e <;> rfl

/-- The same entry on top makes two logs in the middle of a change ready for the next one. -/
theorem Beside.push (h : Beside number log log') (he : e.isMove = false) :
    Parallel number (log.push e) (log'.push (e.renumbered number)) where
  entries := by
    have hmove : (e.renumbered number).isMove = false := by
      cases e <;> first | rfl | exact he
    simp only [entries_push, List.filter_cons, he, hmove, Bool.not_false, if_true, List.map_cons,
      h.entries]
  disabled := h.disabled
  announced := h.announced
  markedTick := h.markedTick
  openInsertion := openInsertion?_push_renumbered
  atBoundary := by
    rw [atBoundary_push, atBoundary_push, Entry.isBoundary_renumbered]

/-- A point move changes nothing where no insertion is open. -/
theorem Beside.push_move (h : Beside number log log') (hopen : log.openInsertion? = none)
    (position : Nat) : Beside number (log.push (.pointMove position)) log' :=
  ⟨h.entries, h.disabled, h.announced, h.markedTick, hopen.symm.trans h.openInsertion⟩

theorem Beside.push_move_right (h : Beside number log log') (hopen : log'.openInsertion? = none)
    (position : Nat) : Beside number log (log'.push (.pointMove position)) :=
  ⟨h.entries, h.disabled, h.announced, h.markedTick, h.openInsertion.trans hopen⟩

/-! ### A log's own operations -/

/-- Nothing is in the logs. -/
theorem parallel_of_nil (hentries : log.entries = []) (hentries' : log'.entries = [])
    (hdisabled : log.disabled = log'.disabled) (hannounced : log.announced = log'.announced)
    (hmarkedTick : log.markedTick = log'.markedTick) : Parallel number log log' where
  entries := by rw [hentries, hentries']; rfl
  disabled := hdisabled
  announced := hannounced
  markedTick := hmarkedTick
  openInsertion := by
    unfold openInsertion?
    rw [hentries, hentries']
  atBoundary := by
    unfold atBoundary head?
    rw [hentries, hentries']

theorem Parallel.disable (h : Parallel number log log') :
    Parallel number log.disable log'.disable :=
  parallel_of_nil rfl rfl rfl h.announced rfl

theorem Parallel.clear (h : Parallel number log log') : Parallel number log.clear log'.clear :=
  parallel_of_nil rfl rfl h.disabled h.announced h.markedTick

theorem Parallel.enable (h : Parallel number log log') : Parallel number log.enable log'.enable :=
  ⟨⟨h.entries, rfl, h.announced, h.markedTick, h.openInsertion⟩, h.atBoundary⟩

theorem Parallel.rearm (h : Parallel number log log') : Parallel number log.rearm log'.rearm :=
  ⟨⟨h.entries, h.disabled, rfl, h.markedTick, h.openInsertion⟩, h.atBoundary⟩

end Log

/-! ### Recordings -/

/-- The terms on which two recordings of a document are compared. -/
structure Terms where
  /-- The document that is recorded. -/
  id : DocId
  settings : Settings
  /-- Somebody listens for first undoable changes. -/
  listening : Bool
  /-- The numbers that the second recording has for the markers. -/
  number : MarkerId → MarkerId

/-- The recorder keeps to the terms, and the notices that wait are about the document. -/
structure Recorder.KeepsTo (terms : Terms) (recorder : Recorder) : Prop where
  settings : recorder.settings = terms.settings
  listening : recorder.listening = terms.listening
  sent : ∀ doc ∈ recorder.sent, doc = terms.id

theorem Recorder.KeepsTo.notify {terms : Terms} {recorder : Recorder} (h : recorder.KeepsTo terms) :
    (recorder.notify terms.id).KeepsTo terms := by
  unfold Recorder.notify
  split
  · refine ⟨h.settings, h.listening, ?_⟩
    intro doc hdoc
    rcases List.mem_append.mp hdoc with hdoc | hdoc
    · exact h.sent doc hdoc
    · exact List.mem_singleton.mp hdoc
  · exact h

/-- What recording sees, with the markers under other numbers. -/
def View.renumbered (number : MarkerId → MarkerId) (v : View) : View :=
  { v with markers := v.markers.map fun (marker, m) => (number marker, m) }

namespace Recording

/-- Two recordings whose logs `L` relates, by recorders that have sent the same notices. -/
structure Pair (L : Log → Log → Prop) (terms : Terms) (s t : Recording) : Prop where
  log : L s.log t.log
  left : s.recorder.KeepsTo terms
  right : t.recorder.KeepsTo terms
  sent : s.recorder.sent = t.recorder.sent

variable {terms : Terms} {s t : Recording} {v : View}

/-- Both recordings are in the middle of a change. -/
abbrev Beside (terms : Terms) : Recording → Recording → Prop :=
  Pair (Log.Beside terms.number) terms

/-- Both recordings are ready for the next change. -/
abbrev Parallel (terms : Terms) : Recording → Recording → Prop :=
  Pair (Log.Parallel terms.number) terms

theorem Pair.beside (h : Parallel terms s t) : Beside terms s t :=
  ⟨h.log.toBeside, h.left, h.right, h.sent⟩

theorem Pair.push {e : Entry} (h : Beside terms s t) (he : e.isMove = false) :
    Parallel terms (s.push e) (t.push (e.renumbered terms.number)) :=
  ⟨h.log.push he, h.left, h.right, h.sent⟩

/-- The displacements of markers are recorded under the numbers that the markers have. -/
theorem Pair.push_shifts (shifts : List (MarkerId × Int)) :
    ∀ {s t : Recording}, Beside terms s t →
      Beside terms
        (shifts.foldl (fun s (marker, delta) => s.push (.markerShift marker delta)) s)
        ((shifts.map fun (marker, delta) => (terms.number marker, delta)).foldl
          (fun s (marker, delta) => s.push (.markerShift marker delta)) t) := by
  induction shifts with
  | nil =>
      intro s t h
      exact h
  | cons shift rest ih =>
      intro s t h
      exact ih (h.push (e := .markerShift shift.1 shift.2) rfl).beside

theorem Pair.beginChange (hv : v.doc = terms.id) (h : Beside terms s t) :
    Beside terms (s.beginChange v) (t.beginChange v) := by
  have hlog := h.log
  unfold Recording.beginChange
  rw [← hlog.announced, hv]
  split
  · exact ⟨hlog, ⟨h.left.settings, h.left.listening, h.left.sent⟩,
      ⟨h.right.settings, h.right.listening, h.right.sent⟩, h.sent⟩
  · have hleft : Recorder.KeepsTo terms { s.recorder with pending := some terms.id } :=
      ⟨h.left.settings, h.left.listening, h.left.sent⟩
    have hright : Recorder.KeepsTo terms { t.recorder with pending := some terms.id } :=
      ⟨h.right.settings, h.right.listening, h.right.sent⟩
    refine ⟨⟨hlog.entries, hlog.disabled, rfl, hlog.markedTick, hlog.openInsertion⟩, hleft.notify,
      hright.notify, ?_⟩
    unfold Recorder.notify
    dsimp only
    rw [h.left.listening, h.right.listening]
    split
    · exact congrArg (· ++ [terms.id]) h.sent
    · exact h.sent

/-- Noting the first change keeps two logs beside each other, and parallel ones parallel. -/
theorem Pair.noteFirstChange {L : Log → Log → Prop} (h : Pair L terms s t)
    (hbeside : ∀ {log log'}, L log log' → Log.Beside terms.number log log')
    (hparallel : ∀ {log log'}, Log.Parallel terms.number log log' → L log log') :
    Pair L terms (s.noteFirstChange v) (t.noteFirstChange v) := by
  have hlog := hbeside h.log
  have hsame : Unnoted v t ↔ Unnoted v s := unnoted_congr hlog.markedTick.symm
  by_cases hs : Unnoted v s
  · rw [noteFirstChange_of_unnoted hs, noteFirstChange_of_unnoted (hsame.mpr hs)]
    have hpush := hlog.push (e := .firstChange v.modtime) rfl
    exact ⟨hparallel ⟨⟨hpush.entries, hpush.disabled, hpush.announced, rfl, rfl⟩, rfl⟩, h.left,
      h.right, h.sent⟩
  · rw [noteFirstChange_of_noted hs, noteFirstChange_of_noted fun ht => hs (hsame.mp ht)]
    exact h

/-- The preamble of a change, but for its point move. -/
def begun (v : View) (s : Recording) : Recording := (s.beginChange v).noteFirstChange v

theorem Pair.begun (hv : v.doc = terms.id) (h : Beside terms s t) :
    Beside terms (s.begun v) (t.begun v) :=
  (h.beginChange hv).noteFirstChange (fun h => h) fun h => h.toBeside

theorem openInsertion?_begun (h : s.log.atBoundary = true) :
    (s.begun v).log.openInsertion? = none := by
  have hopen : (s.beginChange v).log.openInsertion? = none := by
    refine Log.openInsertion?_of_atBoundary ?_
    rwa [atBoundary_congr (adds_beginChange v s).entries]
  unfold begun
  by_cases hs : Unnoted v (s.beginChange v)
  · rw [noteFirstChange_of_unnoted hs]
    rfl
  · rw [noteFirstChange_of_noted hs]
    exact hopen

/-- The preamble has a point move only if it opens a unit. -/
theorem notePoint_cases (v : View) (pos : Nat) (hin : s.recorder.settings.inhibitPoint = false) :
    s.notePoint v pos = s.begun v ∨
      s.log.atBoundary = true ∧
        ∃ position, s.notePoint v pos = (s.begun v).push (.pointMove position) := by
  have hboundary : (s.beginChange v).log.atBoundary = s.log.atBoundary :=
    atBoundary_congr (adds_beginChange v s).entries
  unfold notePoint
  rw [if_neg (by simp [hin])]
  dsimp only
  rw [hboundary]
  split
  · rename_i position hopens _
    split
    · exact Or.inl rfl
    · exact Or.inr ⟨hopens, position, rfl⟩
  · exact Or.inl rfl

theorem Pair.notePoint (hv : v.doc = terms.id) (h : Parallel terms s t) (pos : Nat) :
    Beside terms (s.notePoint v pos) (t.notePoint v pos) := by
  have hbeside : Beside terms s t := h.beside
  by_cases hin : terms.settings.inhibitPoint = true
  · unfold Recording.notePoint
    rw [h.left.settings, h.right.settings, if_pos hin, if_pos hin]
    exact hbeside
  have hin' : terms.settings.inhibitPoint = false := by simpa using hin
  have hbegun := hbeside.begun hv
  rcases notePoint_cases v pos (by rwa [h.left.settings]) with hs | ⟨hs, position, hpush⟩ <;>
    rcases notePoint_cases v pos (by rwa [h.right.settings]) with ht | ⟨ht, position', hpush'⟩
  · rw [hs, ht]
    exact hbegun
  · rw [hs, hpush']
    exact ⟨hbegun.log.push_move_right (openInsertion?_begun ht) position', hbegun.left,
      hbegun.right, hbegun.sent⟩
  · rw [hpush, ht]
    exact ⟨hbegun.log.push_move (openInsertion?_begun hs) position, hbegun.left, hbegun.right,
      hbegun.sent⟩
  · rw [hpush, hpush']
    have hleft := hbegun.log.push_move (openInsertion?_begun hs) position
    exact ⟨hleft.push_move_right (openInsertion?_begun ht) position', hbegun.left, hbegun.right,
      hbegun.sent⟩

/-! ### The recording calls -/

theorem extendInsertion_of_none {start stop : Nat} (h : s.log.openInsertion? = none) :
    s.extendInsertion start stop = s.push (.insertion start stop) := by
  unfold extendInsertion
  split
  · rename_i hentries
    unfold Log.openInsertion? at h
    rw [hentries] at h
    cases h
  · rfl

theorem entries_of_openInsertion {start stop : Nat} {log : Log}
    (h : log.openInsertion? = some (start, stop)) :
    ∃ older, log.entries = .insertion start stop :: older := by
  unfold Log.openInsertion? at h
  split at h
  · rename_i hentries
    cases h
    exact ⟨_, hentries⟩
  · cases h

theorem extendInsertion_of_entries {first last start stop : Nat} {older : List Entry}
    (h : s.log.entries = .insertion first last :: older) :
    s.extendInsertion start stop =
      if last = start then
        { s with log := { s.log with entries := .insertion first stop :: older } }
      else s.push (.insertion start stop) := by
  unfold extendInsertion
  rw [h]

theorem Pair.extendInsertion (h : Beside terms s t) (start stop : Nat) :
    Parallel terms (s.extendInsertion start stop) (t.extendInsertion start stop) := by
  have hpush : Parallel terms (s.push (.insertion start stop))
      (t.push (.insertion start stop)) := h.push (e := .insertion start stop) rfl
  have hopen := h.log.openInsertion
  cases hs : s.log.openInsertion? with
  | none =>
      rw [extendInsertion_of_none hs, extendInsertion_of_none (hopen.symm.trans hs)]
      exact hpush
  | some span =>
      obtain ⟨first, last⟩ := span
      obtain ⟨older, hentries⟩ := entries_of_openInsertion hs
      obtain ⟨older', hentries'⟩ := entries_of_openInsertion (hopen.symm.trans hs)
      rw [extendInsertion_of_entries hentries, extendInsertion_of_entries hentries']
      by_cases hlast : last = start
      · rw [if_pos hlast, if_pos hlast]
        have hsame := h.log.entries
        rw [hentries, hentries'] at hsame
        have holder : (older.filter (!·.isMove)).map (Entry.renumbered terms.number)
            = older'.filter (!·.isMove) := (List.cons.inj hsame).2
        refine ⟨⟨⟨?_, h.log.disabled, h.log.announced, h.log.markedTick, rfl⟩, rfl⟩, h.left,
          h.right, h.sent⟩
        exact congrArg (Entry.insertion first stop :: ·) holder
      · rw [if_neg hlast, if_neg hlast]
        exact hpush

theorem displacements_renumbered (number : MarkerId → MarkerId) (start stop : Nat)
    (markers : List (MarkerId × Marker)) :
    displacements start stop (markers.map fun (marker, m) => (number marker, m))
      = (displacements start stop markers).map fun (marker, delta) => (number marker, delta) := by
  unfold displacements
  rw [List.filter_map, List.map_map, List.map_map]
  rfl

theorem disabled_of_parallel (s t : Recording) (h : Parallel terms s t) :
    s.log.disabled = t.log.disabled := h.log.disabled

section Calls

variable (hv : v.doc = terms.id)

include hv

theorem runsAlike_recordInsert (start length : Nat) :
    RunsAlike (Parallel terms) (recordInsert start length v)
      (recordInsert start length (v.renumbered terms.number)) := by
  refine runsAlike_whenEnabled disabled_of_parallel (.bind (respects_require _) ?_)
  intro _
  refine .modify ?_
  intro s t h
  exact (h.notePoint hv start).extendInsertion start (start + length)

theorem runsAlike_recordDelete (start : Nat) (text : Text) (withMarkers : Bool) :
    RunsAlike (Parallel terms) (recordDelete start text withMarkers v)
      (recordDelete start text withMarkers (v.renumbered terms.number)) := by
  have hmoved : moved (v.renumbered terms.number) start (start + text.length) withMarkers
      = (moved v start (start + text.length) withMarkers).map
        fun (marker, delta) => (terms.number marker, delta) := by
    unfold moved
    split
    · exact displacements_renumbered terms.number start (start + text.length) v.markers
    · rfl
  have hfits : (∀ m ∈ moved v start (start + text.length) withMarkers, Offset.FitsSigned m.2) ↔
      ∀ m ∈ moved (v.renumbered terms.number) start (start + text.length) withMarkers,
        Offset.FitsSigned m.2 := by
    rw [hmoved, List.forall_mem_map]
  refine runsAlike_whenEnabled disabled_of_parallel (.bind (respects_require _) ?_)
  intro _
  refine .bind (runsAlike_require hfits) ?_
  intro _
  refine .bind (respects_require _) ?_
  intro _
  refine .modify ?_
  intro s t h
  show Parallel terms (s.afterDelete v start text withMarkers)
    (t.afterDelete (v.renumbered terms.number) start text withMarkers)
  unfold afterDelete
  have hnoted := h.notePoint hv (undonePoint v start (start + text.length))
  have hbegun : Beside terms
      (if withMarkers then (s.notePoint v (undonePoint v start (start + text.length))).beginChange v
        else s.notePoint v (undonePoint v start (start + text.length)))
      (if withMarkers then (t.notePoint v (undonePoint v start (start + text.length))).beginChange v
        else t.notePoint v (undonePoint v start (start + text.length))) := by
    split
    · exact hnoted.beginChange hv
    · exact hnoted
  have hshifted := hbegun.push_shifts
    ((moved v start (start + text.length) withMarkers).filter (·.2 ≠ 0))
  dsimp only
  rw [hmoved, List.filter_map]
  exact hshifted.push (e := .deletion text (signedOffset v start (start + text.length))) rfl

theorem runsAlike_recordChange (start length : Nat) :
    RunsAlike (Parallel terms) (recordChange start length v)
      (recordChange start length (v.renumbered terms.number)) := by
  refine runsAlike_whenEnabled disabled_of_parallel (.bind (respects_require _) ?_)
  intro _
  have hread : (v.renumbered terms.number).read = v.read := rfl
  rw [hread]
  cases v.read start (start + length) with
  | error e => exact .throw _
  | ok text =>
      refine .bind (runsAlike_recordDelete hv start text false) ?_
      intro _
      exact runsAlike_recordInsert hv start length

omit hv in
theorem runsAlike_recordFirstChange :
    RunsAlike (Parallel terms) (recordFirstChange v)
      (recordFirstChange (v.renumbered terms.number)) := by
  refine runsAlike_whenEnabled disabled_of_parallel (.modify ?_)
  intro s t h
  exact h.noteFirstChange (fun h => h.toBeside) fun h => h

theorem runsAlike_recordPropertyChange (start length : Nat) (name : String) (old : Json) :
    RunsAlike (Parallel terms) (recordPropertyChange start length name old v)
      (recordPropertyChange start length name old (v.renumbered terms.number)) := by
  refine runsAlike_whenEnabled disabled_of_parallel (.bind (respects_require _) ?_)
  intro _
  refine .modify ?_
  intro s t h
  have hbeside : Beside terms s t := h.beside
  have hbegun : Beside terms (s.begun v) (t.begun v) := hbeside.begun hv
  exact hbegun.push (e := .propertyChange _) rfl

omit hv in
theorem runsAlike_insertBoundary :
    RunsAlike (Parallel terms) (insertBoundary v)
      (insertBoundary (v.renumbered terms.number)) := by
  refine .modify ?_
  intro s t h
  show Parallel terms (s.endUnit v) (t.endUnit v)
  unfold endUnit
  rw [← h.log.disabled, ← h.log.atBoundary]
  have hpush : Parallel terms (s.push .boundary) (t.push .boundary) :=
    h.beside.push (e := .boundary) rfl
  split
  · exact h
  · split
    · exact ⟨h.log, ⟨h.left.settings, h.left.listening, h.left.sent⟩,
        ⟨h.right.settings, h.right.listening, h.right.sent⟩, h.sent⟩
    · exact ⟨hpush.log, ⟨h.left.settings, h.left.listening, h.left.sent⟩,
        ⟨h.right.settings, h.right.listening, h.right.sent⟩, h.sent⟩

end Calls

end Recording

end EditHistory
