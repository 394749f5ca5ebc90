/-
Logs that are switched off.

There is nothing in a log that is switched off.  Switching it off empties it, its own
operations only take entries away, and recording leaves it alone.  The last is a fact about
each recording call: each looks for itself whether the log is on, before anything else.

So while a log is off, whatever is asked of it succeeds and changes nothing.  That is so of
recordings with any arguments, false ones and those too large to count with included, and
of truncations, held off or not: the ledger is the same afterwards, with the log, what the
recorder remembers and the notices that it sent, and no hook was asked.
-/
import EditHistory.Proofs.Ledger

namespace EditHistory

/-- There is nothing in the log if it is switched off. -/
def Log.EmptyIfOff (log : Log) : Prop := log.disabled = true → log.entries = []

/-- A log keeps that by its own operations. -/
theorem Log.EmptyIfOff.upkept {log log' : Log} (h : log.EmptyIfOff) (hkept : log.Upkept log') :
    log'.EmptyIfOff := by
  induction hkept with
  | refl => exact h
  | retain count _ ih =>
      intro hoff
      exact (congrArg (List.take count) (ih hoff)).trans List.take_nil
  | clear _ _ => exact fun _ => rfl
  | disable _ _ => exact fun _ => rfl
  | enable _ _ => exact nofun
  | rearm _ ih => exact ih

namespace Recording

variable {s : Recording}

/-- A request of a document whose log is switched off is granted, and that is all. -/
theorem Request.call_of_disabled (request : Request) (v : View) (hoff : s.log.disabled = true) :
    request.call v s = .ok () s := by
  cases request with
  | boundary =>
      show EStateM.Result.ok () (s.endUnit v) = _
      rw [endUnit, if_pos hoff]
  | insertion start length => exact whenEnabled_off hoff
  | deletion start text withMarkers => exact whenEnabled_off hoff
  | change start length => exact whenEnabled_off hoff
  | firstChange => exact whenEnabled_off hoff
  | propertyChange start length name old => exact whenEnabled_off hoff

/-- No request switches a log off. -/
theorem Request.maintains_enabled (request : Request) (v : View) :
    Maintains (fun s => s.log.disabled = false) (request.call v) := by
  have hinsert (start length : Nat) :
      Maintains (fun s : Recording => s.log.disabled = false) (recordInsert start length v) := by
    refine maintains_recordInsert start length v fun s hon => ?_
    rcases adds_or_lengthens_afterInsert v start length s with hadds | ⟨-, -, -, -, hkeeps⟩
    · exact hadds.keeps.disabled.trans hon
    · exact hkeeps.disabled.trans hon
  have hdelete (start : Nat) (text : Text) (withMarkers : Bool) :
      Maintains (fun s : Recording => s.log.disabled = false)
        (recordDelete start text withMarkers v) :=
    maintains_recordDelete start text withMarkers v fun _ _ s hon =>
      (adds_afterDelete v start text withMarkers s).keeps.disabled.trans hon
  cases request with
  | insertion start length => exact hinsert start length
  | deletion start text withMarkers => exact hdelete start text withMarkers
  | change start length =>
      exact maintains_recordChange start length v (hdelete start · false) (hinsert start length)
  | firstChange =>
      exact maintains_recordFirstChange v fun s hon =>
        (adds_noteFirstChange v s).keeps.disabled.trans hon
  | propertyChange start length name old =>
      exact maintains_recordPropertyChange start length name old v fun s hon =>
        (adds_afterPropertyChange v start length name old s).keeps.disabled.trans hon
  | boundary => exact Maintains.modify fun s hon => (disabled_endUnit v s).trans hon

/-- A request puts nothing in a log that is switched off, before or after it. -/
theorem Request.maintains_emptyIfOff (request : Request) (v : View) :
    Maintains (fun s => s.log.EmptyIfOff) (request.call v) := by
  intro s s' hends h
  -- A log that is on stays on; one that is off is left as it is.
  cases hoff : s.log.disabled with
  | false =>
      have hon := request.maintains_enabled v s s' hends hoff
      exact fun hoff' => absurd hoff' (by simp [hon])
  | true =>
      have hsame := hends.finalState_eq
      rw [request.call_of_disabled v hoff] at hsame
      exact hsame ▸ h

end Recording

/-- A log that is switched off has no size, whatever part of it is asked for. -/
theorem Log.sizeWithin_of_disabled {log : Log} (hoff : log.disabled = true) (units : Option Int) :
    log.sizeWithin units = .ok none := if_pos hoff

/-- A log that is switched off is not truncated. -/
theorem truncateUnder_of_disabled {log : Log} (hoff : log.disabled = true) (hook : Option Hook)
    (settings : Settings) (depth : Nat) : ∃ outcome, truncateUnder hook settings depth log
      = { result := .ok outcome, log, depth, calls := [] } := by
  unfold truncateUnder
  by_cases hdepth : 0 < depth
  · rw [if_pos hdepth]
    exact ⟨_, rfl⟩
  · rw [if_neg hdepth, if_pos hoff]
    exact ⟨_, rfl⟩

open Recording (Request)

namespace Ledger

variable {l l' : Ledger} {id : DocId}

theorem setLog_self (id : DocId) (l : Ledger) : l.setLog id (l.logs id) = l := by
  have hlogs : (l.setLog id (l.logs id)).logs = l.logs := by
    funext other
    show (if other = id then l.logs id else l.logs other) = l.logs other
    split
    · rename_i hother
      rw [hother]
    · rfl
  exact Ledger.ext rfl rfl hlogs

theorem setRecording_self (id : DocId) (l : Ledger) : l.setRecording id (l.recording id) = l :=
  setLog_self id l

/-! ### There is nothing in them -/

/-- There is nothing in the logs that are switched off. -/
def EmptyIfOff (l : Ledger) : Prop := ∀ id, (l.logs id).EmptyIfOff

theorem EmptyIfOff.setLog {log : Log} (h : l.EmptyIfOff) (hlog : log.EmptyIfOff) :
    (l.setLog id log).EmptyIfOff :=
  forall_setLog h hlog

theorem EmptyIfOff.step (h : l.EmptyIfOff) (hstep : l.Step l') : l'.EmptyIfOff := by
  cases hstep with
  | record id v request hfault =>
      exact h.setLog (request.maintains_emptyIfOff v _ _ (EndsAt.of_not_faults hfault) (h id))
  | truncate id => exact h.setLog ((h id).upkept (upkept_truncateUnder _ _ _ _))
  | upkeep id hkept => exact h.setLog ((h id).upkept hkept)
  | copy id source => exact h.setLog (h source)
  | start id => exact h.setLog fun _ => rfl
  | configure recorder depth => exact h

theorem Reached.emptyIfOff (h : Reached l) : l.EmptyIfOff := by
  induction h with
  | empty recorder depth => exact fun _ _ => rfl
  | step _ hstep ih => exact ih.step hstep

/-! ### What is asked of them -/

/-- What can be asked of the log of one document, from outside. -/
inductive Demand where
  | record (v : View) (request : Request)
  | truncate

/-- A ledger, and the calls of hooks that have been made so far. -/
structure Attended where
  ledger : Ledger
  calls : List HookCall := []

/-- Does what is asked of the log of `id`.  A run of demands stops at the first that fails. -/
def Demand.run (id : DocId) : Demand → EStateM Failure Attended Unit
  | .record v request => fun s =>
    match request.call v (s.ledger.recording id) with
    | .ok () r => .ok () { s with ledger := s.ledger.setRecording id r }
    | .error e r => .error e { s with ledger := s.ledger.setRecording id r }
  | .truncate => fun s =>
    let l := s.ledger
    let ended := truncateUnder l.recorder.hook l.recorder.settings l.depth (l.logs id)
    let after := { ledger := l.truncate id, calls := s.calls ++ ended.calls }
    match ended.result with
    | .ok _ => .ok () after
    | .error e => .error (.error (.history e)) after

/-- What is asked of a log that is switched off is done, and leaves everything as it is. -/
theorem Demand.run_of_disabled (demand : Demand) {s : Attended}
    (hoff : (s.ledger.logs id).disabled = true) : demand.run id s = .ok () s := by
  cases demand with
  | record v request =>
      unfold run
      dsimp only
      rw [request.call_of_disabled v hoff]
      dsimp only
      rw [setRecording_self]
  | truncate =>
      obtain ⟨outcome, hended⟩ := truncateUnder_of_disabled hoff s.ledger.recorder.hook
        s.ledger.recorder.settings s.ledger.depth
      unfold run Ledger.truncate
      dsimp only
      rw [hended]
      dsimp only
      rw [List.append_nil, setLog_self]

/-- So is a run of demands: the log is off at each, as it was at the first. -/
theorem run_demands_of_disabled (demands : List Demand) {s : Attended}
    (hoff : (s.ledger.logs id).disabled = true) :
    demands.forM (Demand.run id) s = .ok () s := by
  induction demands with
  | nil => rfl
  | cons demand rest ih =>
      show (demand.run id >>= fun _ => rest.forM (Demand.run id)) s = _
      simp only [bind, EStateM.bind, demand.run_of_disabled hoff]
      exact ih

/--
**A log that is switched off is frozen.**  Let documents of any kind make any requests, and
let logs be truncated under any hook, used by themselves and copied.  Then a log that is
switched off is empty; while it is off, whatever is asked of it one after the other is done,
and leaves the ledger as it was and the hooks alone; and it has no size, whatever number of
units is asked for.
-/
theorem disabled_log_frozen (h : Reached l) (hoff : (l.logs id).disabled = true) :
    (l.logs id).entries = [] ∧
      (∀ (demands : List Demand) (calls : List HookCall),
        demands.forM (Demand.run id) { ledger := l, calls } = .ok () { ledger := l, calls }) ∧
      ∀ units, (l.logs id).sizeWithin units = .ok none :=
  ⟨h.emptyIfOff id hoff, fun demands _ => run_demands_of_disabled demands hoff,
    Log.sizeWithin_of_disabled hoff⟩

/-- The first unit is shown to a hook that switches the log off and declines. -/
def declinedDisabled : Ledger :=
  let recorder : Recorder :=
    { settings := { outerLimit := some 0 }, hook := some (.mk [.disable] .declined) }
  (record ⟨0⟩ (abcView 0) (.insertion 0 1) { recorder }).truncate ⟨0⟩

theorem disabled_log_frozen_declined :
    Reached declinedDisabled ∧ (declinedDisabled.logs ⟨0⟩).disabled = true ∧
      (declinedDisabled.logs ⟨0⟩).entries = [] ∧
      declinedDisabled.recorder.pending = some ⟨0⟩ ∧
      ([.record (abcView 0) (.change 5 0x10000000000000000), .truncate,
          .record (abcView 3) .boundary].forM (Demand.run ⟨0⟩) { ledger := declinedDisabled }
        = .ok () { ledger := declinedDisabled }) ∧
      (declinedDisabled.logs ⟨0⟩).sizeWithin (some (-1)) = .ok none := by
  have hreached : Reached declinedDisabled :=
    .step (.step (.empty _ 0) (.record ⟨0⟩ (abcView 0) (.insertion 0 1) rfl)) (.truncate ⟨0⟩)
  have hoff : (declinedDisabled.logs ⟨0⟩).disabled = true := by decide +kernel
  obtain ⟨hempty, hdemands, hsize⟩ := disabled_log_frozen hreached hoff
  exact ⟨hreached, hoff, hempty, by decide +kernel, hdemands _ [], hsize _⟩

end Ledger

/-- In a session too, the logs that are switched off are empty. -/
theorem Workspace.emptyIfOff_logOf {start : Workspace} {commands : List Command}
    (hstart : start.ledger.Reached) (hunbroken : start.Unbroken commands) (id : DocId) :
    ((start.later commands).logOf id).EmptyIfOff :=
  (reached_later hstart hunbroken).emptyIfOff id

end EditHistory
