/-
Higher limits keep more.

The two limits end the walk of a truncation in different ways.  Past the soft limit the unit
above the boundary is kept, past the strong limit it is dropped.  So a higher limit can turn
one way of ending into the other, the strong one into the soft one or, where the limits are in
no order, the soft one into going on.

In none of these cases is less kept.  All that has to be known of the walk is that it keeps at
least what it can fall back to, wherever it ends: it only goes towards older entries, and
falls back to a boundary it has passed.
-/
import EditHistory.Proofs.Truncation.Hooks

namespace EditHistory

namespace Log

variable {soft soft' strong strong' index size keep count count' : Nat} {older entries : List Entry}

/-- Wherever the walk ends, it keeps what it could fall back to when it began. -/
theorem le_of_cutFrom (hkeep : keep ≤ index + 1)
    (h : cutFrom soft strong index size keep older = some count) : keep ≤ count := by
  induction older generalizing index size keep with
  | nil => cases h
  | cons e older ih =>
      unfold cutFrom at h
      split at h
      · split at h
        · exact Nat.le_of_eq (Option.some.inj h)
        · split at h
          · exact Option.some.inj h ▸ hkeep
          · exact Nat.le_trans hkeep (ih (Nat.le_succ _) h)
      · exact ih (Nat.le_succ_of_le hkeep) h

/-- If the walk ends under the higher limits, it ends under the lower ones, and keeps no more. -/
theorem cutFrom_mono (hsoft : soft ≤ soft') (hstrong : strong ≤ strong') (hkeep : keep ≤ index + 1)
    (h : cutFrom soft' strong' index size keep older = some count') :
    ∃ count, cutFrom soft strong index size keep older = some count ∧ count ≤ count' := by
  induction older generalizing index size keep with
  | nil => cases h
  | cons e older ih =>
      have hfallback := le_of_cutFrom hkeep h
      unfold cutFrom at h ⊢
      by_cases he : e.isBoundary = true
      · rw [if_pos he] at h ⊢
        -- The lower strong limit drops the unit above, whatever the higher limits do here.
        by_cases hdrop : strong < size
        · rw [if_pos hdrop]
          exact ⟨keep, rfl, hfallback⟩
        rw [if_neg hdrop]
        rw [if_neg (by omega)] at h
        -- The lower soft limit keeps it, and the higher one does so too or lets the walk go on.
        by_cases hstop : soft < size
        · rw [if_pos hstop]
          refine ⟨index + 1, rfl, ?_⟩
          split at h
          · exact Nat.le_of_eq (Option.some.inj h)
          · exact le_of_cutFrom (Nat.le_succ _) h
        · rw [if_neg hstop]
          rw [if_neg (by omega)] at h
          exact ih (Nat.le_succ _) h
      · rw [if_neg he] at h ⊢
        exact ih (Nat.le_succ_of_le hkeep) h

theorem cut_mono (hsoft : soft ≤ soft') (hstrong : strong ≤ strong')
    (h : cut soft' strong' entries = some count') :
    ∃ count, cut soft strong entries = some count ∧ count ≤ count' :=
  cutFrom_mono hsoft hstrong (Nat.le_refl _) h

/-- Of the newest entries fewer are kept. -/
theorem retain_retain (h : count ≤ count') (log : Log) :
    (log.retain count').retain count = log.retain count := by
  unfold retain
  dsimp only
  rw [List.take_take, Nat.min_eq_left h]

/-- What the lower limits leave of a log are the newest entries of what the higher ones leave. -/
theorem exists_retain_cutToLimits {settings settings' : Settings}
    (hsoft : settings.softLimit ≤ settings'.softLimit)
    (hstrong : settings.strongLimit ≤ settings'.strongLimit) (log : Log) :
    ∃ count, (log.cutToLimits settings).2 = (log.cutToLimits settings').2.retain count := by
  unfold cutToLimits
  cases hcut' : cut settings'.softLimit settings'.strongLimit log.entries with
  | none =>
      cases cut settings.softLimit settings.strongLimit log.entries with
      | none => exact ⟨log.length, log.retain_length.symm⟩
      | some count => exact ⟨count, rfl⟩
  | some count' =>
      obtain ⟨count, hcut, hle⟩ := cut_mono hsoft hstrong hcut'
      rw [hcut]
      exact ⟨count, (retain_retain hle log).symm⟩

end Log

/--
**Higher limits keep more.**  Raise the soft limit or the strong one or both, whatever their
order before and after.  Then a truncation without a hook keeps no fewer entries of any log,
and what it kept before are the newest of them.
-/
theorem truncation_monotone {settings settings' : Settings}
    (hsoft : settings.softLimit ≤ settings'.softLimit)
    (hstrong : settings.strongLimit ≤ settings'.strongLimit) (depth : Nat) (log : Log) :
    (truncateUnder none settings depth log).log.length
        ≤ (truncateUnder none settings' depth log).log.length ∧
      (truncateUnder none settings depth log).log.entries
        <+: (truncateUnder none settings' depth log).log.entries ∧
      ∃ count, (truncateUnder none settings depth log).log
        = (truncateUnder none settings' depth log).log.retain count := by
  have hretain : ∃ count, (truncateUnder none settings depth log).log
      = (truncateUnder none settings' depth log).log.retain count := by
    rw [log_truncateUnder_of_not_asks not_asks_none, log_truncateUnder_of_not_asks not_asks_none]
    split
    · exact ⟨log.length, log.retain_length.symm⟩
    · exact Log.exists_retain_cutToLimits hsoft hstrong log
  obtain ⟨count, hcount⟩ := hretain
  have hnewest : (truncateUnder none settings depth log).log.entries
      <+: (truncateUnder none settings' depth log).log.entries := by
    rw [hcount]
    exact List.take_prefix _ _
  exact ⟨hnewest.length_le, hnewest, count, hcount⟩

/--
At the third boundary the lower limits drop the unit above by the strong one, which is smaller
than the soft one; under the higher limits the soft one ends the walk there, and keeps it.
-/
theorem truncation_monotone_four_units :
    let log : Log := { entries := [.insertion 3 4, .boundary, .insertion 2 3, .boundary,
      .insertion 1 2, .boundary, .insertion 0 1] }
    let lower : Settings := { softLimit := 110, strongLimit := 100, outerLimit := none }
    let higher : Settings := { softLimit := 120, strongLimit := 130, outerLimit := none }
    (truncateUnder none lower 0 log).log.entries
        <+: (truncateUnder none higher 0 log).log.entries ∧
      (truncateUnder none lower 0 log).log.length = 4 ∧
      (truncateUnder none higher 0 log).log.length = 6 :=
  ⟨(truncation_monotone (by decide) (by decide) 0 _).2.1, by decide, by decide⟩

end EditHistory
