/-
What becomes of a log that nothing is recorded into.

A log has five operations of its own: it keeps its newest entries or none, is switched off
or on, and lets the next change be announced again.  A truncation is a run of these,
whatever hook it is under, so what the five keep is kept by every truncation.  A hook may
truncate other logs besides, which is nothing to this one.
-/
import EditHistory.Truncation

namespace EditHistory

/-- `log` turns into the other log by its own operations. -/
inductive Log.Upkept (log : Log) : Log → Prop
  | refl : Upkept log log
  | retain {l : Log} (count : Nat) (h : Upkept log l) : Upkept log (l.retain count)
  | clear {l : Log} (h : Upkept log l) : Upkept log l.clear
  | disable {l : Log} (h : Upkept log l) : Upkept log l.disable
  | enable {l : Log} (h : Upkept log l) : Upkept log l.enable
  | rearm {l : Log} (h : Upkept log l) : Upkept log l.rearm

namespace Log.Upkept

variable {log log' log'' : Log}

theorem trans (h : Upkept log log') (h' : Upkept log' log'') : Upkept log log'' := by
  induction h' with
  | refl => exact h
  | retain count _ ih => exact .retain count ih
  | clear _ ih => exact .clear ih
  | disable _ ih => exact .disable ih
  | enable _ ih => exact .enable ih
  | rearm _ ih => exact .rearm ih

theorem cutToLimits (settings : Settings) (log : Log) :
    Upkept log (log.cutToLimits settings).2 := by
  unfold Log.cutToLimits
  split
  · exact .refl
  · exact .retain _ .refl

/-- Only what is still there of the entries is left. -/
theorem entries (h : Upkept log log') : ∃ count, log'.entries = log.entries.take count := by
  have hnone : ∃ count, ([] : List Entry) = log.entries.take count := ⟨0, List.take_zero.symm⟩
  induction h with
  | refl => exact ⟨log.entries.length, List.take_length.symm⟩
  | retain count _ ih =>
      obtain ⟨kept, hkept⟩ := ih
      refine ⟨min count kept, ?_⟩
      show List.take count _ = _
      rw [hkept, List.take_take]
  | clear _ _ => exact hnone
  | disable _ _ => exact hnone
  | enable _ ih => exact ih
  | rearm _ ih => exact ih

/-- The marked tick stays, or is forgotten. -/
theorem markedTick (h : Upkept log log') :
    log'.markedTick = log.markedTick ∨ log'.markedTick = none := by
  induction h with
  | refl => exact Or.inl rfl
  | disable _ _ => exact Or.inr rfl
  | retain _ _ ih => exact ih
  | clear _ ih => exact ih
  | enable _ ih => exact ih
  | rearm _ ih => exact ih

end Log.Upkept

open Log (Upkept)

/-! ### Truncation -/

mutual

theorem HookAction.upkept_run (action : HookAction) (depth : Nat) (log : Log) :
    Upkept log (action.run depth log).log := by
  cases action with
  | retain count => exact .retain count .refl
  | clear => exact .clear .refl
  | disable => exact .disable .refl
  | enable => exact .enable .refl
  | rearm => exact .rearm .refl
  | holding actions => exact HookAction.upkept_runAll actions (depth + 1) log
  | truncate settings hook other => exact .refl

theorem HookAction.upkept_runAll (actions : List HookAction) (depth : Nat) (log : Log) :
    Upkept log (HookAction.runAll actions depth log).log := by
  cases actions with
  | nil => exact .refl
  | cons action rest =>
      exact (action.upkept_run depth log).trans (HookAction.upkept_runAll rest _ _)

end

theorem Hook.upkept_run (hook : Hook) (settings : Settings) (size depth : Nat) (log : Log) :
    Upkept log (hook.run settings size depth log).log := by
  obtain ⟨actions, answer⟩ := hook
  have hwork := HookAction.upkept_runAll actions depth log
  cases answer with
  | handled => exact hwork
  | failed text => exact hwork
  | discard => exact .clear hwork
  | declined => exact hwork.trans (.cutToLimits settings _)

/-- A truncation does with a log what the log itself can do. -/
theorem upkept_truncateUnder (hook : Option Hook) (settings : Settings) (depth : Nat) (log : Log) :
    Upkept log (truncateUnder hook settings depth log).log := by
  unfold truncateUnder
  split
  · exact .refl
  · split
    · exact .refl
    · dsimp only
      split
      · exact Hook.upkept_run _ _ _ _ _
      · exact .cutToLimits settings log

end EditHistory
