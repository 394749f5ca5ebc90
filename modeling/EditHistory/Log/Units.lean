/-
Units: the stretches of a log between its boundaries.

A unit is what one undo command takes back.  Three readings of a log are built on
its boundaries.  `units` groups the entries, leaving empty groups out.
`unitCount` counts those groups.  `sizeWithin` measures the log from its newest
entry to the boundary that closes a given number of units.

A boundary at the very head closes nothing newer than itself, so measuring does
not count it as crossed.
-/
import EditHistory.Log.Basic
import EditHistory.Failure

namespace EditHistory

namespace Log

/-! ### Grouping -/

/--
Groups the entries by boundaries, newest unit first; `current` holds the entries
of the unit being gathered, oldest of them first.
-/
def groups (current : List Entry) : List Entry → List (List Entry)
  | [] => if current.isEmpty then [] else [current.reverse]
  | e :: older =>
    if e.isBoundary then
      if current.isEmpty then groups [] older else current.reverse :: groups [] older
    else groups (e :: current) older

/-- The units of the log, newest first, each newest entry first. -/
def units (log : Log) : List (List Entry) := groups [] log.entries

/-- Counts the groups of entries; `filled` says whether the current one holds an entry. -/
def countGroups (filled : Bool) : List Entry → Nat
  | [] => filled.toNat
  | e :: older => if e.isBoundary then filled.toNat + countGroups false older else countGroups true older

/-- The number of units. -/
def unitCount (log : Log) : Nat := countGroups false log.entries

theorem length_groups (current : List Entry) (entries : List Entry) :
    (groups current entries).length = countGroups (!current.isEmpty) entries := by
  induction entries generalizing current with
  | nil => cases current <;> simp [groups, countGroups]
  | cons e older ih =>
    by_cases he : e.isBoundary
    · cases current <;> simp [groups, countGroups, he, ih]
      omega
    · simp [groups, countGroups, he, ih]

/-- Counting the units is counting the groups. -/
theorem length_units (log : Log) : log.units.length = log.unitCount := length_groups [] log.entries

/-! ### Measuring -/

/--
The cost of the entries up to the boundary that closes the `limit`-th unit, that
boundary included; of all entries, without a limit.  `crossed` boundaries have
been passed so far.
-/
def costWithin (limit : Option Nat) (crossed : Nat) : List Entry → Nat
  | [] => 0
  | e :: older =>
    if e.isBoundary then
      if limit.any (· ≤ crossed + 1) then e.cost else e.cost + costWithin limit (crossed + 1) older
    else e.cost + costWithin limit crossed older

/--
The size of the log: of its newest `limit` units, or of all of them without a
limit or with the limit zero.  A log that is switched off has no size, and a
negative limit is refused.
-/
def sizeWithin (limit : Option Int) (log : Log) : Except HistoryError (Option Nat) :=
  if log.disabled then .ok none
  else
    match limit with
    | none | some 0 => .ok (some (measure none))
    | some (.ofNat n) => .ok (some (measure (some n)))
    | some count => .error (.negativeUnits count)
where
  /-- The newest entry is counted, and not as a boundary that is crossed. -/
  measure (limit : Option Nat) : Nat :=
    match log.entries with
    | [] => 0
    | newest :: older => newest.cost + costWithin limit 0 older

/-! ### The newest unit

The newest unit here includes a boundary at the head of the log: it is the
stretch that truncation never drops.
-/

/-- The newest unit, with the boundary that ended it if there is one. -/
def newestUnit : List Entry → List Entry
  | [] => []
  | newest :: older => newest :: older.takeWhile (!·.isBoundary)

/-- The entries older than the newest unit; the first of them is a boundary. -/
def olderUnits : List Entry → List Entry
  | [] => []
  | _ :: older => older.dropWhile (!·.isBoundary)

theorem newestUnit_append_olderUnits (entries : List Entry) :
    newestUnit entries ++ olderUnits entries = entries := by
  cases entries with
  | nil => rfl
  | cons e older => simp [newestUnit, olderUnits]

end Log

end EditHistory
