/-
The settings of a history: how much of it to keep, and whether to record the
cursor.

Three limits are kept, in bytes of log.  Above the soft limit no further unit is
kept; a unit that would cross the strong limit is dropped itself; a newest unit
above the outer limit is shown to the outer-limit hook.  Limits can be written
down in any order, and `ordered` raises what is too low.
-/

namespace EditHistory

/-- The settings of a history. -/
structure Settings where
  /-- Above this size no older unit is kept. -/
  softLimit : Nat := 80000
  /-- A unit that crosses this size is dropped. -/
  strongLimit : Nat := 120000
  /-- A newest unit above this size goes to the outer-limit hook; without it, none does. -/
  outerLimit : Option Nat := some 12000000
  /-- Do not record the cursor, nor what goes with it, when text changes. -/
  inhibitPoint : Bool := false
deriving DecidableEq, Repr, Inhabited

namespace Settings

/-- The limits do not decrease from soft to strong to outer. -/
structure Ordered (s : Settings) : Prop where
  soft_le_strong : s.softLimit ≤ s.strongLimit
  strong_le_outer : ∀ outer ∈ s.outerLimit, s.strongLimit ≤ outer

/-- The settings with each limit raised to the one below it. -/
def ordered (s : Settings) : Settings :=
  let strong := max s.strongLimit s.softLimit
  { s with
    strongLimit := strong
    outerLimit := s.outerLimit.map (max · strong) }

@[simp] theorem softLimit_ordered (s : Settings) : s.ordered.softLimit = s.softLimit := rfl

@[simp] theorem inhibitPoint_ordered (s : Settings) : s.ordered.inhibitPoint = s.inhibitPoint := rfl

@[simp] theorem strongLimit_ordered (s : Settings) :
    s.ordered.strongLimit = max s.strongLimit s.softLimit := rfl

@[simp] theorem outerLimit_ordered (s : Settings) :
    s.ordered.outerLimit = s.outerLimit.map (max · (max s.strongLimit s.softLimit)) := rfl

/-- Raising the limits puts them in order. -/
theorem ordered_ordered (s : Settings) : Ordered s.ordered where
  soft_le_strong := by simp only [softLimit_ordered, strongLimit_ordered]; omega
  strong_le_outer := by
    intro outer h
    simp only [outerLimit_ordered, Option.mem_def, Option.map_eq_some_iff] at h
    obtain ⟨a, -, rfl⟩ := h
    simp only [strongLimit_ordered]
    omega

end Settings

end EditHistory
