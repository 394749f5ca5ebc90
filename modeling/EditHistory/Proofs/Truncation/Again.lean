/-
Truncating a log again.

A truncation that cut a log has left it ending in the boundary where it was cut.  The walk of
a second one, under the same settings, is the first again as far as the log goes, and it has
nothing left to cut.  Either the first walk went on past that boundary before it fell back to
it; then so does the second, and it runs out of entries.  Or the first walk stopped there and
kept the boundary; then the second one stops there as well, and all that is left is kept.

A hook that empties the log leaves no newest unit above any limit, so it is not asked again.
-/
import EditHistory.Proofs.Truncation.Limits

namespace EditHistory

namespace Log

variable {entries older : List Entry} {soft strong index size keep count : Nat} {settings : Settings}
  {log : Log}

/-! ### The walk over what was kept -/

/-- On the entries that the walk keeps it finds nothing to cut, or keeps them all. -/
theorem cutFrom_take (h : cutFrom soft strong index size keep older = some count) :
    cutFrom soft strong index size keep (older.take (count - index)) = none ∨
      cutFrom soft strong index size keep (older.take (count - index)) = some count := by
  induction older generalizing index size keep with
  | nil => cases h
  | cons e older ih =>
      by_cases hend : count ≤ index
      · rw [Nat.sub_eq_zero_of_le hend]
        exact Or.inl rfl
      -- The walk goes over the entry `e` again, and ends at it if it did before.
      rw [show count - index = count - (index + 1) + 1 by omega, List.take_succ_cons]
      unfold cutFrom at h ⊢
      by_cases he : e.isBoundary = true
      · rw [if_pos he] at h ⊢
        by_cases hstrong : strong < size
        · rw [if_pos hstrong] at h ⊢
          exact Or.inr h
        rw [if_neg hstrong] at h ⊢
        by_cases hsoft : soft < size
        · rw [if_pos hsoft] at h ⊢
          exact Or.inr h
        rw [if_neg hsoft] at h ⊢
        exact ih h
      · rw [if_neg he] at h ⊢
        exact ih h

/-- The newest unit is the same if it is kept. -/
theorem newestUnit_take (h : (newestUnit entries).length ≤ count) :
    newestUnit (entries.take count) = newestUnit entries := by
  cases entries with
  | nil => rw [List.take_nil]
  | cons newest rest =>
      obtain ⟨count, rfl⟩ := Nat.exists_eq_succ_of_ne_zero
        (Nat.pos_iff_ne_zero.mp (Nat.lt_of_lt_of_le (Nat.succ_pos _) h))
      have hbody : (rest.takeWhile (!·.isBoundary)).length ≤ count := Nat.le_of_succ_le_succ h
      rw [List.take_succ_cons, newestUnit, newestUnit, ← List.take_takeWhile,
        List.take_of_length_le hbody]

theorem olderUnits_take (h : (newestUnit entries).length ≤ count) :
    olderUnits (entries.take count)
      = (olderUnits entries).take (count - (newestUnit entries).length) := by
  have hsplit : newestUnit (entries.take count) ++ olderUnits (entries.take count)
      = newestUnit entries ++ (olderUnits entries).take (count - (newestUnit entries).length) := by
    have hall : (newestUnit entries).take count = newestUnit entries := List.take_of_length_le h
    calc newestUnit (entries.take count) ++ olderUnits (entries.take count)
        = (newestUnit entries ++ olderUnits entries).take count := by
          rw [newestUnit_append_olderUnits, newestUnit_append_olderUnits]
      _ = newestUnit entries ++ (olderUnits entries).take (count - (newestUnit entries).length) := by
          rw [List.take_append, hall]
  rw [newestUnit_take h] at hsplit
  exact List.append_cancel_left hsplit

/-- A cut keeps some of the entries, and the newest unit among them. -/
theorem bounds_of_cut (h : cut soft strong entries = some count) :
    (newestUnit entries).length ≤ count ∧ count ≤ entries.length := by
  obtain ⟨b, hpoint, rfl⟩ := isCutPoint_of_cut h
  exact ⟨Nat.le_succ_of_le (length_newestUnit_le hpoint), lt_length_of_isCutPoint hpoint⟩

theorem cut_take (h : cut soft strong entries = some count) :
    cut soft strong (entries.take count) = none ∨
      cut soft strong (entries.take count) = some count := by
  obtain ⟨hunit, -⟩ := bounds_of_cut h
  unfold cut at h ⊢
  dsimp only at h ⊢
  rw [newestUnit_take hunit, olderUnits_take hunit]
  exact cutFrom_take h

/-! ### What the limits leave -/

theorem length_retain (h : count ≤ log.length) : (log.retain count).length = count :=
  List.length_take_of_le h

/-- The limits cut nothing off what they leave. -/
theorem cut_cutToLimits_snd (settings : Settings) (log : Log) :
    cut settings.softLimit settings.strongLimit (log.cutToLimits settings).2.entries = none ∨
      cut settings.softLimit settings.strongLimit (log.cutToLimits settings).2.entries
        = some (log.cutToLimits settings).2.length := by
  unfold cutToLimits
  cases hcut : cut settings.softLimit settings.strongLimit log.entries with
  | none => exact Or.inl hcut
  | some count =>
      dsimp only
      rw [length_retain (bounds_of_cut hcut).2]
      exact cut_take hcut

theorem cutToLimits_of_cut_length
    (h : cut settings.softLimit settings.strongLimit log.entries = some log.length) :
    log.cutToLimits settings = (.truncated log.length 0, log) := by
  unfold cutToLimits
  rw [h]
  dsimp only
  rw [Nat.sub_self, retain_length]

theorem cutToLimits_of_cut_none
    (h : cut settings.softLimit settings.strongLimit log.entries = none) :
    log.cutToLimits settings = (.untouched, log) := by
  unfold cutToLimits
  rw [h]

theorem cutToLimits_cutToLimits (settings : Settings) (log : Log) :
    ((log.cutToLimits settings).2.cutToLimits settings).2 = (log.cutToLimits settings).2 := by
  rcases cut_cutToLimits_snd settings log with h | h
  · rw [cutToLimits_of_cut_none h]
  · rw [cutToLimits_of_cut_length h]

theorem newestUnit_cutToLimits (settings : Settings) (log : Log) :
    newestUnit (log.cutToLimits settings).2.entries = newestUnit log.entries := by
  unfold cutToLimits
  cases hcut : cut settings.softLimit settings.strongLimit log.entries with
  | none => rfl
  | some count => exact newestUnit_take (bounds_of_cut hcut).1

end Log

/-! ### The second truncation -/

section Second

variable {hook : Option Hook} {settings : Settings} {depth : Nat} {log kept : Log}

/-- Only the newest unit, and that the log is on, tell whether the hook is to be asked. -/
theorem not_asks_of_same (h : ¬Asks hook settings depth log) (hdisabled : kept.disabled = log.disabled)
    (hunit : Log.newestUnit kept.entries = Log.newestUnit log.entries) :
    ¬Asks hook settings depth kept := by
  unfold Asks at h ⊢
  rwa [hdisabled, hunit]

/-- Nobody is asked about an empty log. -/
theorem not_asks_of_empty (h : log.entries = []) : ¬Asks hook settings depth log := by
  rintro ⟨-, -, -, outer, -, hsize⟩
  rw [h] at hsize
  exact Nat.not_lt_zero _ hsize

/-- What a truncation leaves that asks nobody, another one leaves as it is. -/
theorem again_of_not_asks (h : ¬Asks hook settings depth log) :
    (truncateUnder hook settings depth (truncateUnder hook settings depth log).log).log
      = (truncateUnder hook settings depth log).log := by
  rw [log_truncateUnder_of_not_asks h]
  split
  · rename_i hleft
    rw [log_truncateUnder_of_not_asks h, if_pos hleft]
  · rename_i hdone
    have hdisabled : (log.cutToLimits settings).2.disabled = log.disabled :=
      (Log.cut_cutToLimits settings log).disabled
    have hunit := Log.newestUnit_cutToLimits settings log
    rw [log_truncateUnder_of_not_asks (not_asks_of_same h hdisabled hunit), hdisabled,
      if_neg hdone, Log.cutToLimits_cutToLimits]

/-- The hook that empties the log leaves nothing to truncate. -/
theorem again_of_discarded (h : Asks (some .discardOversized) settings depth log) :
    (truncateUnder (some .discardOversized) settings depth
        (truncateUnder (some .discardOversized) settings depth log).log).log
      = (truncateUnder (some .discardOversized) settings depth log).log := by
  obtain ⟨own, hown, hrun⟩ := truncateUnder_of_asks h
  obtain rfl : Hook.discardOversized = own := Option.some.inj hown
  have hcleared : (truncateUnder (some .discardOversized) settings depth log).log = log.clear := by
    rw [hrun]
    rfl
  rw [hcleared, log_truncateUnder_of_not_asks (not_asks_of_empty rfl)]
  split <;> rfl

end Second

/--
**A second truncation changes nothing.**  Without a hook, and with the one that empties the
log, a truncation right after another one leaves the log as that one left it, whatever the
settings, and whether truncation is held off or not.
-/
theorem truncation_idempotent {hook : Option Hook}
    (hhook : hook = none ∨ hook = some .discardOversized) (settings : Settings) (depth : Nat)
    (log : Log) :
    let first := truncateUnder hook settings depth log
    (truncateUnder hook settings first.depth first.log).log = first.log := by
  dsimp only
  rw [depth_truncateUnder]
  by_cases hasks : Asks hook settings depth log
  · rcases hhook with rfl | rfl
    · exact absurd hasks not_asks_none
    · exact again_of_discarded hasks
  · exact again_of_not_asks hasks

/--
A log that is cut at its third boundary, where the soft limit ends the first walk and the
second one; and the same log when its newest unit is above the outer limit, and is thrown away.
-/
theorem truncation_idempotent_four_units :
    let log : Log := { entries := [.insertion 3 4, .boundary, .insertion 2 3, .boundary,
      .insertion 1 2, .boundary, .insertion 0 1] }
    let limits : Settings := { softLimit := 120, strongLimit := 130, outerLimit := some 20 }
    let cut := truncateUnder none limits 0 log
    let emptied := truncateUnder (some .discardOversized) limits 0 log
    (truncateUnder none limits cut.depth cut.log).log = cut.log ∧
      cut.log.entries = [.insertion 3 4, .boundary, .insertion 2 3, .boundary, .insertion 1 2,
        .boundary] ∧
      (truncateUnder (some .discardOversized) limits emptied.depth emptied.log).log = emptied.log ∧
      emptied.log.entries = [] := by
  intro log limits cut emptied
  exact ⟨truncation_idempotent (Or.inl rfl) limits 0 log, by decide +kernel,
    truncation_idempotent (Or.inr rfl) limits 0 log, by decide +kernel⟩

end EditHistory
