/-
Truncation: keeping a log within its limits.

The newest unit always survives.  Older units are kept while what is newer stays
within the soft limit, and a unit that would take the log past the strong limit
is dropped; the log is cut right after a boundary, so no unit is ever cut in two.

A newest unit above the outer limit is first shown to the outer-limit hook.  A
hook is data: what it does to the log, and what it answers.  It may truncate
other logs, under hooks of their own, which is why hooks and truncation are
defined together; and it may hold truncation off for a while.  `depth` counts how
often truncation is being held off.  A truncation holds others off while it runs,
so what a hook truncates is left alone.
-/
import EditHistory.Log.Units
import EditHistory.Settings.Basic

namespace EditHistory

/-! ### Where to cut -/

namespace Log

/--
Walks the entries older than the newest unit and answers how many entries to
keep, if anything is to be cut.  `index` entries of cost `size` are newer, and
`keep` is the cut to fall back to if the unit being walked is to be dropped.
-/
def cutFrom (soft strong : Nat) (index size keep : Nat) : List Entry → Option Nat
  | [] => none
  | e :: older =>
    if e.isBoundary then
      if strong < size then some keep
      else if soft < size then some (index + 1)
      else cutFrom soft strong (index + 1) (size + e.cost) (index + 1) older
    else cutFrom soft strong (index + 1) (size + e.cost) keep older

/-- How many entries the limits allow to keep, if they allow no more than some. -/
def cut (soft strong : Nat) (entries : List Entry) : Option Nat :=
  let unit := newestUnit entries
  cutFrom soft strong unit.length (Entry.totalCost unit) (unit.length + 1) (olderUnits entries)

end Log

/-! ### Outcomes and hooks -/

/-- How a truncation went. -/
inductive Outcome where
  /-- Nothing had to be cut. -/
  | untouched
  | truncated (kept dropped : Nat)
  /-- The outer-limit hook took care of the log. -/
  | handledByHook
  /-- Truncation was held off. -/
  | skipped
deriving DecidableEq, Repr

namespace Outcome

/-- The wording of the outcome. -/
def describe : Outcome → String
  | .untouched => "Untouched"
  | .truncated kept dropped => s!"Truncated \x7b kept: {kept}, dropped: {dropped} \x7d"
  | .handledByHook => "HandledByHook"
  | .skipped => "Skipped"

end Outcome

/-- What a hook answers once it has done its work. -/
inductive HookAnswer where
  /-- The log has been taken care of. -/
  | handled
  /-- The log is to be truncated as if there were no hook. -/
  | declined
  /-- The log is to be emptied, and is then taken care of. -/
  | discard
  /-- The hook failed, with this text. -/
  | failed (text : String)
deriving DecidableEq, Repr

mutual

/-- One thing that an outer-limit hook does. -/
inductive HookAction where
  /-- Keeps the newest entries of the log. -/
  | retain (count : Nat)
  | clear
  | disable
  | enable
  /-- Lets the next change be announced again. -/
  | rearm
  /-- Does the actions while holding truncation off once more. -/
  | holding (actions : List HookAction)
  /-- Truncates another log, under settings and a hook of its own. -/
  | truncate (settings : Settings) (hook : Option Hook) (other : Log)

/-- An outer-limit hook: what it does in order, and what it answers. -/
inductive Hook where
  | mk (actions : List HookAction) (answer : HookAnswer)

end

deriving instance Repr for HookAction, Hook

instance : Inhabited Hook := ⟨.mk [] .handled⟩

namespace Hook

/-- The hook that empties the log. -/
def discardOversized : Hook := .mk [] .discard

end Hook

/-- What an outer-limit hook was called with, and what came of the truncations it asked for. -/
structure HookCall where
  /-- The size of the newest unit. -/
  size : Nat
  /-- The number of entries of the log at the call. -/
  length : Nat
  /-- How often truncation was being held off at the call. -/
  depth : Nat
  /-- The results of the truncations that the hook itself asked for, in order. -/
  nested : List (Except HistoryError Outcome)

/-- A truncation that has ended. -/
structure Truncation where
  result : Except HistoryError Outcome
  log : Log
  /-- How often truncation is held off afterwards. -/
  depth : Nat
  /-- The hook calls that were made, in order. -/
  calls : List HookCall

/-- What the actions of a hook leave behind. -/
structure HookWork where
  log : Log
  depth : Nat
  /-- The results of the truncations that were asked for, in order. -/
  nested : List (Except HistoryError Outcome) := []
  /-- The hook calls that those truncations made, in order. -/
  calls : List HookCall := []

namespace Log

/-- Cuts the log as the limits ask, without a hook. -/
def cutToLimits (settings : Settings) (log : Log) : Outcome × Log :=
  match cut settings.softLimit settings.strongLimit log.entries with
  | none => (.untouched, log)
  | some keep => (.truncated keep (log.length - keep), log.retain keep)

end Log

/-! ### Truncation and the work of hooks -/

mutual

/-- Does the actions in order on the log. -/
def HookAction.runAll : List HookAction → (depth : Nat) → Log → HookWork
  | [], depth, log => { log, depth }
  | action :: rest, depth, log =>
    let first := action.run depth log
    let others := HookAction.runAll rest first.depth first.log
    { others with nested := first.nested ++ others.nested, calls := first.calls ++ others.calls }

/-- Does one action on the log. -/
def HookAction.run : HookAction → (depth : Nat) → Log → HookWork
  | .retain count, depth, log => { log := log.retain count, depth }
  | .clear, depth, log => { log := log.clear, depth }
  | .disable, depth, log => { log := log.disable, depth }
  | .enable, depth, log => { log := log.enable, depth }
  | .rearm, depth, log => { log := log.rearm, depth }
  | .holding actions, depth, log =>
    let work := HookAction.runAll actions (depth + 1) log
    { work with depth := work.depth - 1 }
  | .truncate settings hook other, depth, log =>
    let ended := truncateUnder hook settings depth other
    { log, depth := ended.depth, nested := [ended.result], calls := ended.calls }

/--
Does the work of a hook on a log whose newest unit has the given size, and goes
on by its answer: a log that the hook declines is cut as the limits ask.
-/
def Hook.run : Hook → (settings : Settings) → (size : Nat) → (depth : Nat) → Log → Truncation
  | .mk actions answer, settings, size, depth, log =>
    let work := HookAction.runAll actions depth log
    let calls := { size, length := log.length, depth, nested := work.nested } :: work.calls
    match answer with
    | .handled => { result := .ok .handledByHook, log := work.log, depth := work.depth, calls }
    | .discard => { result := .ok .handledByHook, log := work.log.clear, depth := work.depth, calls }
    | .failed text => { result := .error (.hookFailed text), log := work.log, depth := work.depth, calls }
    | .declined =>
      let (outcome, log) := work.log.cutToLimits settings
      { result := .ok outcome, log, depth := work.depth, calls }

/--
Truncates a log.  Nothing is done while truncation is held off or to a log that is
switched off; the hook is asked only if the newest unit is above the outer limit.
-/
def truncateUnder :
    (hook : Option Hook) → (settings : Settings) → (depth : Nat) → Log → Truncation
  | hook, settings, depth, log =>
    if 0 < depth then { result := .ok .skipped, log, depth, calls := [] }
    else if log.disabled then { result := .ok .untouched, log, depth, calls := [] }
    else
      let size := Entry.totalCost (Log.newestUnit log.entries)
      match hook, settings.outerLimit.any (· < size) with
      | some hook, true =>
        let ended := hook.run settings size (depth + 1) log
        { ended with depth := ended.depth - 1 }
      | _, _ =>
        let (outcome, log) := log.cutToLimits settings
        { result := .ok outcome, log, depth, calls := [] }

end

end EditHistory
