/-
First changes are announced on the edge.

A log keeps a flag that says that its first change has been announced, and a change that
begins sends a notice only if the flag is down.  Two things move the flag.  A change that
begins raises it; and it is lowered when somebody asks for that, by the log's own operation
or from the hook of a truncation.  Nothing else does, so the flag is up exactly if a change
has begun since it was last lowered.  That is `Run.announced_iff`.

A request may begin its change twice, but its second beginning finds the flag up.  So what a
request sends is one notice or none, and which of the two is told by the past: a change of
the document begins, and none has begun since the flag was last lowered.
-/
import EditHistory.Proofs.Ledger.Runs
import EditHistory.Proofs.Truncation.Hooks

namespace EditHistory

open Recording (Request)

/-! ### Hooks that lower the flag -/

mutual

/-- The action lets the next change of the log be announced again. -/
def HookAction.rearms : HookAction → Bool
  | .rearm => true
  | .holding actions => HookAction.anyRearms actions
  | _ => false

/-- One of the actions does. -/
def HookAction.anyRearms : List HookAction → Bool
  | [] => false
  | action :: rest => action.rearms || HookAction.anyRearms rest

end

/-- The hook lets the next change of the log that it is shown be announced again. -/
def Hook.rearms : Hook → Bool
  | .mk actions _ => HookAction.anyRearms actions

mutual

theorem HookAction.announced_run (action : HookAction) (depth : Nat) (log : Log) :
    (action.run depth log).log.announced = (log.announced && !action.rearms) := by
  cases action with
  | rearm => exact (Bool.and_false _).symm
  | holding actions => exact HookAction.announced_runAll actions (depth + 1) log
  | truncate settings hook other => exact (Bool.and_true _).symm
  | retain count => exact (Bool.and_true _).symm
  | clear => exact (Bool.and_true _).symm
  | disable => exact (Bool.and_true _).symm
  | enable => exact (Bool.and_true _).symm

theorem HookAction.announced_runAll (actions : List HookAction) (depth : Nat) (log : Log) :
    (HookAction.runAll actions depth log).log.announced
      = (log.announced && !HookAction.anyRearms actions) := by
  cases actions with
  | nil => exact (Bool.and_true _).symm
  | cons action rest =>
      have hrest := HookAction.announced_runAll rest (action.run depth log).depth
        (action.run depth log).log
      rw [HookAction.announced_run action depth log] at hrest
      rw [HookAction.anyRearms, Bool.not_or, ← Bool.and_assoc]
      exact hrest

end

theorem Log.announced_cutToLimits (settings : Settings) (log : Log) :
    (log.cutToLimits settings).2.announced = log.announced := by
  unfold cutToLimits
  split <;> rfl

theorem Hook.announced_run (hook : Hook) (settings : Settings) (size depth : Nat) (log : Log) :
    (hook.run settings size depth log).log.announced = (log.announced && !hook.rearms) := by
  obtain ⟨actions, answer⟩ := hook
  have hwork := HookAction.announced_runAll actions depth log
  cases answer with
  | handled => exact hwork
  | discard => exact hwork
  | failed text => exact hwork
  | declined => exact (Log.announced_cutToLimits settings _).trans hwork

/-- Only a hook that is asked can lower the flag in a truncation. -/
theorem announced_truncateUnder (hook : Option Hook) (settings : Settings) (depth : Nat)
    (log : Log) : (truncateUnder hook settings depth log).log.announced = true ↔
      log.announced = true ∧ ¬(Asks hook settings depth log ∧ hook.any Hook.rearms = true) := by
  by_cases hasks : Asks hook settings depth log
  · obtain ⟨own, rfl, hrun⟩ := truncateUnder_of_asks hasks
    rw [hrun]
    dsimp only
    rw [own.announced_run, Option.any_some]
    simp [hasks]
  · rw [log_truncateUnder_of_not_asks hasks]
    split
    · simp [hasks]
    · rw [Log.announced_cutToLimits]
      simp [hasks]

namespace Ledger

variable {first l : Ledger} {id : DocId} {past : List Occasion}

namespace Occasion

variable {o : Occasion}

/-- On the occasion the next change of the document is let be announced again. -/
def Rearms (id : DocId) (o : Occasion) : Prop :=
  o.use = .upkeep id .rearm ∨
    (o.use = .truncate id ∧ o.before.recorder.hook.any Hook.rearms = true ∧
      Asks o.before.recorder.hook o.before.recorder.settings o.before.depth (o.before.logs id))

/-- The notices that were sent on the occasion, in order. -/
def notices (o : Occasion) : List DocId :=
  o.after.recorder.sent.drop o.before.recorder.sent.length

/-! ### One occasion -/

theorem not_rearms_of_record {v : View} {request : Request} (huse : o.use = .record v request) :
    ¬o.Rearms id := by
  rintro (h | ⟨h, -⟩) <;> cases huse.symm.trans h

theorem listening_after (hends : o.use.ends o.before = false) :
    o.after.recorder.listening = o.before.recorder.listening := by
  obtain ⟨before, use⟩ := o
  cases use with
  | record v request =>
      by_cases h : Begins v.doc { before, use := .record v request }
      · exact congrArg Recording.Signals.listening (signals_of_begins rfl hends h)
      · exact congrArg Recording.Signals.listening (signals_of_not_begins rfl hends h).1
  | truncate id => rfl
  | upkeep id operation => rfl
  | configure settings hook depth => rfl

theorem notices_of_sent {ns : List DocId}
    (h : o.after.recorder.sent = o.before.recorder.sent ++ ns) : o.notices = ns := by
  rw [notices, h, List.drop_left]

/-- A change that begins sends its notice, unless it has been announced. -/
theorem sent_of_begins (hends : o.use.ends o.before = false)
    (hlistening : o.before.recorder.listening = true) (h : o.Begins id) :
    o.after.recorder.sent = o.before.recorder.sent ++
      if (o.before.logs id).announced = false then [id] else [] := by
  have hbegins := h
  obtain ⟨v, request, huse, rfl, -⟩ := hbegins
  have hnotices : (o.before.recording v.doc).signals.notices v.doc
      = if (o.before.logs v.doc).announced = false then [v.doc] else [] := by
    show (if o.before.recorder.listening = true ∧ (o.before.logs v.doc).announced = false then
      [v.doc] else []) = _
    simp only [hlistening, true_and]
  rw [← hnotices]
  exact congrArg Recording.Signals.sent (signals_of_begins huse hends h)

/-- Where no change begins nothing is sent. -/
theorem sent_of_not_begins (hends : o.use.ends o.before = false) (h : ∀ id, ¬o.Begins id) :
    o.after.recorder.sent = o.before.recorder.sent := by
  obtain ⟨before, use⟩ := o
  cases use with
  | record v request =>
      exact congrArg Recording.Signals.sent (signals_of_not_begins rfl hends (h v.doc)).1
  | truncate id => rfl
  | upkeep id operation => rfl
  | configure settings hook depth => rfl

/-- A notice is sent if a change begins whose document has not been announced. -/
theorem sent_after (hends : o.use.ends o.before = false)
    (hlistening : o.before.recorder.listening = true) :
    o.after.recorder.sent = o.before.recorder.sent ++ o.notices ∧ o.notices.length ≤ 1 ∧
      ∀ id, id ∈ o.notices ↔ o.Begins id ∧ (o.before.logs id).announced = false := by
  by_cases hbegins : ∃ id, o.Begins id
  · obtain ⟨id, hid⟩ := hbegins
    have hsent := sent_of_begins hends hlistening hid
    rw [notices_of_sent hsent]
    refine ⟨hsent, by split <;> simp, fun other => ?_⟩
    by_cases hannounced : (o.before.logs id).announced = false
    · rw [if_pos hannounced, List.mem_singleton]
      constructor
      · rintro rfl
        exact ⟨hid, hannounced⟩
      · exact fun ⟨hother, _⟩ => hother.unique hid
    · rw [if_neg hannounced]
      constructor
      · exact fun h => absurd h List.not_mem_nil
      · rintro ⟨hother, hnot⟩
        rw [hother.unique hid] at hnot
        exact absurd hnot hannounced
  · have hnone : ∀ id, ¬o.Begins id := fun id h => hbegins ⟨id, h⟩
    have hsent : o.after.recorder.sent = o.before.recorder.sent ++ [] :=
      (sent_of_not_begins hends hnone).trans (List.append_nil _).symm
    rw [notices_of_sent hsent]
    exact ⟨hsent, Nat.zero_le 1, fun id =>
      ⟨fun h => absurd h List.not_mem_nil, fun h => absurd h.1 (hnone id)⟩⟩

/-- A request raises the flag of its own document if it begins a change. -/
theorem announced_after_record {v : View} {request : Request} (huse : o.use = .record v request)
    (hends : o.use.ends o.before = false) (id : DocId) :
    (o.after.logs id).announced = true ↔ o.Begins id ∨ (o.before.logs id).announced = true := by
  by_cases hid : id = v.doc
  · subst hid
    by_cases h : o.Begins v.doc
    · have hannounced : (o.after.logs v.doc).announced = true :=
        congrArg Recording.Signals.announced (signals_of_begins huse hends h)
      exact ⟨fun _ => Or.inl h, fun _ => hannounced⟩
    · have hannounced : (o.after.logs v.doc).announced = (o.before.logs v.doc).announced :=
        congrArg Recording.Signals.announced (signals_of_not_begins huse hends h).1
      rw [hannounced]
      exact ⟨Or.inr, fun hor => hor.resolve_left h⟩
  · have hbegins : ¬o.Begins id := fun h => hid ((begins_iff huse).mp h).1.symm
    rw [logs_after_of_ne huse hid]
    exact ⟨Or.inr, fun hor => hor.resolve_left hbegins⟩

/-- A truncation lowers the flag of its log if it asks a hook that does. -/
theorem announced_after_truncate {target : DocId} (huse : o.use = .truncate target) (id : DocId) :
    (o.after.logs id).announced = true ↔ ¬o.Rearms id ∧ (o.before.logs id).announced = true := by
  rw [logs_after_truncate huse]
  by_cases hid : id = target
  · subst hid
    have hrearms : o.Rearms id ↔ Asks o.before.recorder.hook o.before.recorder.settings
        o.before.depth (o.before.logs id) ∧ o.before.recorder.hook.any Hook.rearms = true := by
      simp only [Rearms, huse, reduceCtorEq, false_or, true_and]
      exact and_comm
    rw [if_pos rfl, announced_truncateUnder, hrearms, and_comm]
  · have hrearms : ¬o.Rearms id := by
      rintro (h | ⟨h, -⟩) <;> cases huse.symm.trans h
      exact hid rfl
    rw [if_neg hid]
    exact (and_iff_right hrearms).symm

/-- One operation of a log lowers its flag, and the others leave it alone. -/
theorem announced_after_upkeep {target : DocId} {operation : Log.Operation}
    (huse : o.use = .upkeep target operation) (id : DocId) :
    (o.after.logs id).announced = true ↔ ¬o.Rearms id ∧ (o.before.logs id).announced = true := by
  have hrearms : o.Rearms id ↔ id = target ∧ operation = .rearm := by
    constructor
    · rintro (h | ⟨h, -⟩) <;> cases huse.symm.trans h
      exact ⟨rfl, rfl⟩
    · rintro ⟨rfl, rfl⟩
      exact Or.inl huse
  rw [logs_after_upkeep huse, hrearms]
  by_cases hid : id = target
  · subst hid
    cases operation <;>
      simp [Log.Operation.run, Log.retain, Log.clear, Log.disable, Log.enable, Log.rearm]
  · simp [hid]

/-- The flag is raised where a change begins, and lowered on demand. -/
theorem announced_after (hends : o.use.ends o.before = false) (id : DocId) :
    (o.after.logs id).announced = true ↔
      o.Begins id ∨ (¬o.Rearms id ∧ (o.before.logs id).announced = true) := by
  cases huse : o.use with
  | record v request =>
      rw [announced_after_record huse hends, and_iff_right (not_rearms_of_record huse)]
  | truncate target =>
      rw [announced_after_truncate huse, or_iff_right (not_begins (by simp [huse]))]
  | upkeep target operation =>
      rw [announced_after_upkeep huse, or_iff_right (not_begins (by simp [huse]))]
  | configure settings hook depth =>
      have hlogs : o.after.logs id = o.before.logs id := by
        rw [after, huse]
        rfl
      have hrearms : ¬o.Rearms id := by
        rintro (h | ⟨h, -⟩) <;> cases huse.symm.trans h
      rw [hlogs, or_iff_right (not_begins (by simp [huse])), and_iff_right hrearms]

/-- The notices of an occasion are sent on the edge, if `older` is what was done before. -/
structure EdgeTriggered (older : List Occasion) (o : Occasion) : Prop where
  sent : o.after.recorder.sent = o.before.recorder.sent ++ o.notices
  one : o.notices.length ≤ 1
  /-- Only its own requests tell of a document. -/
  own : ∀ id ∈ o.notices, ∃ v request, o.use = .record v request ∧ v.doc = id
  /-- A change begins, and none has begun since the flag was last lowered, if ever. -/
  edge : ∀ id, id ∈ o.notices ↔ o.Begins id ∧ ¬Since (Begins id) (¬Rearms id ·) older
  /-- Between two notices of a document its flag was lowered. -/
  between : ∀ id ∈ o.notices, ∀ since o' earlier, older = since ++ o' :: earlier →
    id ∈ o'.notices → ∃ r ∈ since, r.Rearms id
  /-- Nothing else moves a flag. -/
  still : ∀ id, ¬o.Begins id → ¬o.Rearms id →
    (o.after.logs id).announced = (o.before.logs id).announced

end Occasion

/-! ### A whole run -/

theorem Run.listening (h : Run first past l) :
    l.recorder.listening = first.recorder.listening := by
  induction h with
  | start => rfl
  | next earlier hends ih => exact (Occasion.listening_after hends).trans ih

/-- The flag is up exactly if a change has begun since it was last lowered. -/
theorem Run.announced_iff (h : Run first past l) (hfresh : (first.logs id).announced = false) :
    (l.logs id).announced = true ↔ Since (Occasion.Begins id) (¬Occasion.Rearms id ·) past := by
  induction h with
  | start => simp [hfresh, not_since_nil]
  | next earlier hends ih =>
      rw [since_cons, ← ih]
      exact Occasion.announced_after hends id

/--
**First changes are announced on the edge.**  Let documents make any requests, let logs be
truncated and used by themselves and the recorder be set up anew, while somebody listens and no
change is announced to begin with.  Then a request sends one notice at most, of its own
document, and everything else sends none.  It sends one exactly if a change begins, and none
has begun since the flag of the log was lowered; so between two notices of a document the flag
was lowered.  To begin a change raises the flag, and only the log's own operation for it lowers
it, called by itself or from a hook: no other request, truncation or operation moves it.
-/
theorem first_changes_announced_once (h : Run first past l)
    (hlistening : first.recorder.listening = true)
    (hfresh : ∀ id, (first.logs id).announced = false) :
    ∀ newer o older, past = newer ++ o :: older → o.EdgeTriggered older := by
  rintro newer o older rfl
  obtain ⟨holder, hends⟩ := h.occasion
  have hheard {o : Occasion} {older : List Occasion} (holder : Run first older o.before) :
      o.before.recorder.listening = true := holder.listening.trans hlistening
  obtain ⟨hsent, hone, hnotices⟩ := Occasion.sent_after hends (hheard holder)
  have hedge (id : DocId) : id ∈ o.notices ↔
      o.Begins id ∧ ¬Since (Occasion.Begins id) (¬Occasion.Rearms id ·) older := by
    rw [hnotices, ← holder.announced_iff (hfresh id), Bool.not_eq_true]
  refine ⟨hsent, hone, fun id hid => ?_, hedge, ?_, fun id hbegins hrearms => ?_⟩
  · obtain ⟨v, request, huse, hdoc, -⟩ := ((hnotices id).mp hid).1
    exact ⟨v, request, huse, hdoc⟩
  · rintro id hid since o' earlier rfl hid'
    obtain ⟨hearlier, hends'⟩ := holder.occasion
    have hbegan : o'.Begins id :=
      (((Occasion.sent_after hends' (hheard hearlier)).2.2 id).mp hid').1
    by_contra hnone
    exact ((hedge id).mp hid).2 ⟨since, o', earlier, rfl, hbegan,
      fun r hr hrearms => hnone ⟨r, hr, hrearms⟩⟩
  · rw [Bool.eq_iff_iff, Occasion.announced_after hends id]
    exact ⟨fun h => (h.resolve_left hbegins).2, fun h => Or.inr ⟨hrearms, h⟩⟩

/--
Points are not recorded: an insertion sends nothing, a deletion with its marker does, and a
property change only because the flag has been lowered in between.
-/
theorem first_changes_announced_once_rearmed :
    let inserting : Occasion :=
      { before := { recorder := { settings := { inhibitPoint := true }, listening := true } }
        use := .record (abcView 3) (.insertion 0 3) }
    let deleting : Occasion :=
      { before := inserting.after, use := .record (abcView 3) (.deletion 1 ['b', 'c'] true) }
    let rearming : Occasion := { before := deleting.after, use := .upkeep ⟨0⟩ .rearm }
    let colouring : Occasion :=
      { before := rearming.after
        use := .record (abcView 3) (.propertyChange 0 1 "colour" .null) }
    Run inserting.before [colouring, rearming, deleting, inserting] colouring.after ∧
      colouring.EdgeTriggered [rearming, deleting, inserting] ∧
      inserting.notices = [] ∧ deleting.notices = [⟨0⟩] ∧ colouring.notices = [⟨0⟩] := by
  intro inserting deleting rearming colouring
  have hrun : Run inserting.before [colouring, rearming, deleting, inserting] colouring.after :=
    .next (.next (.next (.next .start (by decide +kernel)) (by decide +kernel)) rfl)
      (by decide +kernel)
  exact ⟨hrun, first_changes_announced_once hrun rfl (fun _ => rfl) [] _ _ rfl,
    by decide +kernel, by decide +kernel, by decide +kernel⟩

end Ledger

end EditHistory
