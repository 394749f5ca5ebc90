/-
At most one truncation at a time.

While truncation is held off, a truncation does nothing: no hook is asked and no log changes.
A truncation that does run holds truncation off for its hook, so whatever the hook truncates
is left alone, under whatever hook of its own, and so on to any depth.  What a hook holds off
besides, it lets go again.  So an outer call of the hook is the only one, and when it ends
truncation is held off as often as it was before.

A hook is data here, the list of what it does in one call.  It is asked at most once in a
truncation, so a hook that first looks at what it is given is one such list in each.
-/
import EditHistory.Proofs.Truncation.Size

namespace EditHistory

variable {hook : Option Hook} {settings : Settings} {depth : Nat} {log : Log}

/-! ### Under a truncation that is running -/

/-- Held off, a truncation does nothing. -/
theorem truncateUnder_of_held (h : 0 < depth) : truncateUnder hook settings depth log
    = { result := .ok .skipped, log, depth, calls := [] } := by
  unfold truncateUnder
  exact if_pos h

/-- To a log that is switched off it does nothing either. -/
theorem truncateUnder_of_off (hook : Option Hook) (settings : Settings)
    (hoff : log.disabled = true) : truncateUnder hook settings 0 log
      = { result := .ok .untouched, log, depth := 0, calls := [] } := by
  unfold truncateUnder
  rw [if_neg (Nat.lt_irrefl 0), if_pos hoff]

/--
Nothing came of the truncations that were asked for, and truncation is held off as often as
before.
-/
structure HookWork.Idle (depth : Nat) (work : HookWork) : Prop where
  depth : work.depth = depth
  calls : work.calls = []
  nested : ∀ result ∈ work.nested, result = .ok .skipped

mutual

theorem HookAction.idle_run (action : HookAction) {depth : Nat} (h : 0 < depth) (log : Log) :
    (action.run depth log).Idle depth := by
  cases action with
  | holding actions =>
      have hwork := HookAction.idle_runAll actions (Nat.succ_pos depth) log
      refine ⟨?_, hwork.calls, hwork.nested⟩
      show (HookAction.runAll actions (depth + 1) log).depth - 1 = depth
      rw [hwork.depth]
      rfl
  | truncate settings hook other =>
      unfold HookAction.run
      rw [truncateUnder_of_held h]
      exact ⟨rfl, rfl, fun _ hresult => List.mem_singleton.mp hresult⟩
  | retain count => exact ⟨rfl, rfl, nofun⟩
  | clear => exact ⟨rfl, rfl, nofun⟩
  | disable => exact ⟨rfl, rfl, nofun⟩
  | enable => exact ⟨rfl, rfl, nofun⟩
  | rearm => exact ⟨rfl, rfl, nofun⟩

theorem HookAction.idle_runAll (actions : List HookAction) {depth : Nat} (h : 0 < depth)
    (log : Log) :
    (HookAction.runAll actions depth log).Idle depth := by
  cases actions with
  | nil => exact ⟨rfl, rfl, nofun⟩
  | cons action rest =>
      have hfirst := action.idle_run h log
      have hothers := HookAction.idle_runAll rest h (action.run depth log).log
      unfold HookAction.runAll
      dsimp only
      rw [hfirst.depth]
      refine ⟨hothers.depth, ?_, List.forall_mem_append.mpr ⟨hfirst.nested, hothers.nested⟩⟩
      rw [hfirst.calls, hothers.calls]
      rfl

end

/-! ### The call of a hook -/

namespace Hook

/-- What the hook leaves of a log if it is called while truncation is held off `depth` times. -/
def leaves (hook : Hook) (depth : Nat) (log : Log) : Log :=
  match hook with
  | .mk actions .discard => (HookAction.runAll actions depth log).log.clear
  | .mk actions _ => (HookAction.runAll actions depth log).log

/-- How a truncation goes whose hook does not decline. -/
def verdict? : Hook → Option (Except HistoryError Outcome)
  | .mk _ .handled | .mk _ .discard => some (.ok .handledByHook)
  | .mk _ (.failed text) => some (.error (.hookFailed text))
  | .mk _ .declined => none

theorem depth_run (hook : Hook) (settings : Settings) (size : Nat) (h : 0 < depth) (log : Log) :
    (hook.run settings size depth log).depth = depth := by
  obtain ⟨actions, answer⟩ := hook
  have hwork := HookAction.idle_runAll actions h log
  cases answer <;> exact hwork.depth

/-- The hook itself is the only one that is asked. -/
theorem calls_run_eq (hook : Hook) (settings : Settings) (size : Nat) (h : 0 < depth) (log : Log) :
    ∃ nested, (hook.run settings size depth log).calls
        = [{ size, length := log.length, depth, nested }] ∧
      ∀ result ∈ nested, result = .ok .skipped := by
  obtain ⟨actions, answer⟩ := hook
  have hwork := HookAction.idle_runAll actions h log
  refine ⟨(HookAction.runAll actions depth log).nested, ?_, hwork.nested⟩
  unfold run
  dsimp only
  rw [hwork.calls]
  cases answer <;> rfl

/-- If the hook does not decline, it has the last word, and leaves the log as it is then. -/
theorem run_of_verdict {result : Except HistoryError Outcome} (hook : Hook) (settings : Settings)
    (size depth : Nat) (log : Log) (h : hook.verdict? = some result) :
    (hook.run settings size depth log).result = result ∧
      (hook.run settings size depth log).log = hook.leaves depth log := by
  obtain ⟨actions, answer⟩ := hook
  cases answer with
  | handled => exact ⟨Option.some.inj h, rfl⟩
  | discard => exact ⟨Option.some.inj h, rfl⟩
  | failed text => exact ⟨Option.some.inj h, rfl⟩
  | declined => cases h

end Hook

/-! ### Measuring the newest unit -/

namespace Log

/-- What the boundary costs that closes the newest unit at its old end, if there is one. -/
def closingCost (entries : List Entry) : Nat :=
  if olderUnits entries = [] then 0 else Entry.boundary.cost

theorem costWithin_one (entries : List Entry) : costWithin (some 1) 0 entries
    = Entry.totalCost (entries.takeWhile (!·.isBoundary))
      + if entries.dropWhile (!·.isBoundary) = [] then 0 else Entry.boundary.cost := by
  induction entries with
  | nil => rfl
  | cons e older ih =>
      unfold costWithin
      by_cases he : e.isBoundary = true
      · obtain rfl := Entry.isBoundary_iff.mp he
        rfl
      · simp [he, ih, Nat.add_assoc]

/-- Measuring one unit takes in the boundary that closes it. -/
theorem sizeWithin_one (hon : log.disabled = false) : log.sizeWithin (some 1)
    = .ok (some (Entry.totalCost (newestUnit log.entries) + closingCost log.entries)) := by
  unfold sizeWithin
  rw [if_neg (by simp [hon])]
  show Except.ok (some (sizeWithin.measure log (some 1))) = _
  unfold sizeWithin.measure closingCost
  cases log.entries with
  | nil => rfl
  | cons newest older =>
      dsimp only
      rw [costWithin_one, newestUnit, olderUnits, Entry.totalCost_cons, Nat.add_assoc]

end Log

/-! ### Truncation -/

/--
The hook is to be asked: nothing holds truncation off, the log is on, and its newest unit is
above the outer limit.
-/
def Asks (hook : Option Hook) (settings : Settings) (depth : Nat) (log : Log) : Prop :=
  log.disabled = false ∧ depth = 0 ∧ hook.isSome ∧
    ∃ outer, settings.outerLimit = some outer ∧ outer < Entry.totalCost (Log.newestUnit log.entries)

/-- A truncation that asks its hook is the hook's. -/
theorem truncateUnder_of_asks (h : Asks hook settings depth log) :
    ∃ own, hook = some own ∧ truncateUnder hook settings depth log
      = { own.run settings (Entry.totalCost (Log.newestUnit log.entries)) 1 log with
          depth := 0 } := by
  obtain ⟨hon, rfl, hsome, outer, houter, hsize⟩ := h
  obtain ⟨own, rfl⟩ := Option.isSome_iff_exists.mp hsome
  refine ⟨own, rfl, ?_⟩
  unfold truncateUnder
  rw [if_neg (Nat.lt_irrefl 0), if_neg (by simp [hon]), houter]
  simp only [Option.any_some, decide_eq_true hsize]
  rw [own.depth_run _ _ (Nat.zero_lt_one)]

/-- Any other truncation asks nobody, and leaves the depth alone. -/
theorem truncateUnder_of_not_asks (h : ¬Asks hook settings depth log) :
    (truncateUnder hook settings depth log).calls = [] ∧
      (truncateUnder hook settings depth log).depth = depth := by
  unfold truncateUnder
  split
  · exact ⟨rfl, rfl⟩
  · rename_i hdepth
    split
    · exact ⟨rfl, rfl⟩
    · rename_i hon
      dsimp only
      split
      · rename_i own hlimit
        obtain ⟨outer, houter, hsize⟩ := (Option.any_eq_true _ _).mp hlimit
        exact absurd ⟨by simpa using hon, by omega, rfl, outer, houter, of_decide_eq_true hsize⟩ h
      · exact ⟨rfl, rfl⟩

/-- What it leaves is up to the limits, unless truncation is held off or the log is off. -/
theorem log_truncateUnder_of_not_asks (h : ¬Asks hook settings depth log) :
    (truncateUnder hook settings depth log).log
      = if 0 < depth ∨ log.disabled = true then log else (log.cutToLimits settings).2 := by
  by_cases hheld : 0 < depth
  · rw [if_pos (Or.inl hheld), truncateUnder_of_held hheld]
  obtain rfl : depth = 0 := Nat.eq_zero_of_not_pos hheld
  by_cases hoff : log.disabled = true
  · rw [if_pos (Or.inr hoff), truncateUnder_of_off _ _ hoff]
  · rw [if_neg (fun hor => hor.elim hheld hoff),
      truncateUnder_of_calls_nil (by simpa using hoff) (truncateUnder_of_not_asks h).1]

theorem not_asks_none : ¬Asks none settings depth log := fun h => nomatch h.2.2.1

/-- Truncation is held off afterwards as often as before, whatever came of it. -/
theorem depth_truncateUnder (hook : Option Hook) (settings : Settings) (depth : Nat) (log : Log) :
    (truncateUnder hook settings depth log).depth = depth := by
  by_cases hasks : Asks hook settings depth log
  · obtain ⟨own, -, hrun⟩ := truncateUnder_of_asks hasks
    rw [hrun]
    exact hasks.2.1.symm
  · exact (truncateUnder_of_not_asks hasks).2

/-- What holds of a truncation that has ended, whatever its hook did. -/
structure Truncation.Alone (hook : Option Hook) (settings : Settings) (depth : Nat) (log : Log)
    (ended : Truncation) : Prop where
  /-- Truncation is held off as often as before, whatever came of this one. -/
  restored : ended.depth = depth
  /-- If truncation was held off, nothing is done and nobody is asked. -/
  skipped : 0 < depth → ended.result = .ok .skipped ∧ ended.log = log ∧ ended.calls = []
  /-- No hook is asked but its own, and that once. -/
  once : ended.calls.length ≤ 1
  /-- The hook is asked exactly if it is to be. -/
  asked : ended.calls ≠ [] ↔ Asks hook settings depth log
  /-- The hook finds truncation held off, and whatever it truncates is left alone. -/
  held : ∀ call ∈ ended.calls, 0 < call.depth ∧ ∀ result ∈ call.nested, result = .ok .skipped
  /-- The hook is told the size of the newest unit, but for the boundary that closes it. -/
  told : ∀ call ∈ ended.calls,
    log.sizeWithin (some 1) = .ok (some (call.size + Log.closingCost log.entries))
  /-- A hook that does not decline has the last word: the log is as it leaves it. -/
  settled : ended.calls ≠ [] → ∀ own, hook = some own → ∀ result, own.verdict? = some result →
    ended.result = result ∧ ended.log = own.leaves 1 log

/--
**At most one truncation is at work.**  Whatever the hook does, truncates or holds off, a
truncation leaves the depth as it found it; its hook is asked once at most, exactly if it is
to be, and is told the size of the newest unit; and whatever is to be truncated while
truncation is held off is left alone and asks nobody.
-/
theorem one_truncation_at_a_time (hook : Option Hook) (settings : Settings) (depth : Nat)
    (log : Log) :
    (truncateUnder hook settings depth log).Alone hook settings depth log := by
  have hrestored := depth_truncateUnder hook settings depth log
  by_cases hasks : Asks hook settings depth log
  · obtain ⟨own, rfl, hrun⟩ := truncateUnder_of_asks hasks
    -- The hook runs at depth one, where whatever it truncates is left alone.
    obtain ⟨nested, hcalls, hskipped⟩ := own.calls_run_eq settings
      (Entry.totalCost (Log.newestUnit log.entries)) Nat.zero_lt_one log
    have hfree : depth = 0 := hasks.2.1
    refine ⟨hrestored, fun h => absurd h (by omega), ?_, ⟨fun _ => hasks, fun _ => ?_⟩, ?_, ?_, ?_⟩
    all_goals rw [hrun]
    · exact (congrArg List.length hcalls).le
    · exact hcalls ▸ List.cons_ne_nil _ _
    · intro call hcall
      obtain rfl := List.mem_singleton.mp (hcalls ▸ hcall)
      exact ⟨Nat.zero_lt_one, hskipped⟩
    · intro call hcall
      obtain rfl := List.mem_singleton.mp (hcalls ▸ hcall)
      exact Log.sizeWithin_one hasks.1
    · intro _ other hother result hverdict
      obtain rfl := Option.some.inj hother
      exact own.run_of_verdict settings _ 1 log hverdict
  · obtain ⟨hcalls, -⟩ := truncateUnder_of_not_asks hasks
    refine ⟨hrestored, fun h => ?_, ?_, ⟨fun h => absurd hcalls h, fun h => absurd h hasks⟩, ?_, ?_,
      fun h => absurd hcalls h⟩
    · rw [truncateUnder_of_held h]
      exact ⟨rfl, rfl, rfl⟩
    · rw [hcalls]
      exact Nat.zero_le 1
    · rw [hcalls]
      nofun
    · rw [hcalls]
      nofun

/--
A hook that lets go of what it holds off, truncates another log under a hook of its own, and
declines: one call, and truncation is free again.
-/
theorem one_truncation_at_a_time_declined :
    let tight : Settings := { softLimit := 0, strongLimit := 0, outerLimit := some 0 }
    let log : Log := { entries := [.insertion 0 2, .boundary, .insertion 2 3] }
    let nested : HookAction := .truncate tight (some .discardOversized) log
    let ended := truncateUnder (some (.mk [.holding [nested], nested] .declined)) tight 0 log
    ended.Alone (some (.mk [.holding [nested], nested] .declined)) tight 0 log ∧
      ended.log.entries = [.insertion 0 2, .boundary] ∧ ended.depth = 0 ∧
      ended.calls =
        [{ size := 32, length := 3, depth := 1, nested := [.ok .skipped, .ok .skipped] }] :=
  ⟨one_truncation_at_a_time _ _ _ _, rfl, rfl, rfl⟩

/-! ### Sessions -/

/-- How often truncation is held off after the command, if it was `depth` times before. -/
def Command.depthAfter (depth : Nat) : Command → Nat
  | .recorder .holdOff => depth + 1
  | .recorder .release => depth - 1
  | _ => depth

namespace Workspace

/-- Truncation is held off and let go by the commands that say so, and by no other. -/
theorem depth_step (w : Workspace) (c : Command) : (w.step c).after.depth = c.depthAfter w.depth := by
  cases c with
  | recorder rc => cases rc <;> rfl
  | marker marker mc =>
      unfold step
      dsimp only
      cases w.markers.get? marker with
      | none => rfl
      | some m => cases mc <;> rfl
  | sheet id sc =>
      unfold step
      dsimp only
      cases w.sheet? id with
      | none => rfl
      | some sheet =>
          dsimp only
          rw [edit_after]
          rfl
  | document id dc =>
      unfold step
      dsimp only
      split
      · rw [edit_after]
        rfl
      · rfl
  | draft id dc =>
      unfold step
      dsimp only
      split
      · rw [edit_after]
        rfl
      · rfl
  | truncate id =>
      unfold step
      dsimp only
      cases w.sheet? id with
      | none => rfl
      | some sheet => exact depth_truncateUnder _ _ _ _

/-- So in a session, whatever is truncated under whatever hooks, and whatever they hold off. -/
theorem depth_later (start : Workspace) (commands : List Command) :
    (start.later commands).depth
      = commands.foldr (fun c depth => c.depthAfter depth) start.depth := by
  induction commands with
  | nil => rfl
  | cons c earlier ih => exact (depth_step _ c).trans (congrArg c.depthAfter ih)

end Workspace

end EditHistory
