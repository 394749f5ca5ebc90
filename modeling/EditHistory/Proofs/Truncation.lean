/-
Where a truncation cuts.

Without a hook a truncation drops the oldest entries and nothing else, and what it
keeps ends in a boundary.  So no unit is cut in two: every unit that is left is
whole, down to its oldest entry.
-/
import EditHistory.Truncation

namespace EditHistory

namespace Log

/-- The newest `count` entries end in a boundary. -/
def EndsUnit (entries : List Entry) (count : Nat) : Prop :=
  (entries.take count).getLast? = some .boundary

theorem endsUnit_of_boundary {newer older : List Entry} :
    EndsUnit (newer ++ .boundary :: older) (newer.length + 1) := by
  unfold EndsUnit
  rw [List.take_append, List.take_of_length_le (Nat.le_succ _), Nat.add_sub_cancel_left]
  simp

/-- If the cut to fall back to is right after a boundary, so is the cut. -/
theorem endsUnit_cutFrom {soft strong count : Nat} {older : List Entry} :
    ∀ {newer : List Entry} {size keep : Nat}, EndsUnit (newer ++ older) keep →
      cutFrom soft strong newer.length size keep older = some count →
      EndsUnit (newer ++ older) count := by
  induction older with
  | nil =>
      intro newer size keep _ h
      cases h
  | cons e older ih =>
      intro newer size keep hkeep h
      have hassoc : newer ++ e :: older = (newer ++ [e]) ++ older := by simp
      have hlen : (newer ++ [e]).length = newer.length + 1 := by simp
      unfold cutFrom at h
      by_cases he : e.isBoundary = true
      · have hhere : EndsUnit (newer ++ e :: older) (newer.length + 1) := by
          rw [Entry.isBoundary_iff.mp he]
          exact endsUnit_of_boundary
        rw [if_pos he] at h
        split at h
        · cases h
          exact hkeep
        · split at h
          · cases h
            exact hhere
          · rw [hassoc] at hhere ⊢
            rw [← hlen] at h
            exact ih (by rwa [hlen]) h
      · rw [if_neg he] at h
        rw [hassoc] at hkeep ⊢
        rw [← hlen] at h
        exact ih hkeep h

/-- The older units start with the boundary that closes the newest. -/
theorem olderUnits_eq_cons {entries older : List Entry} {e : Entry}
    (h : olderUnits entries = e :: older) : e = .boundary := by
  cases entries with
  | nil => cases h
  | cons newest rest =>
      have hhead : (rest.dropWhile (!·.isBoundary)).head? = some e := by
        rw [show rest.dropWhile (!·.isBoundary) = e :: older from h]
        rfl
      have hb := List.head?_dropWhile_not (fun e : Entry => !e.isBoundary) rest
      rw [hhead] at hb
      exact Entry.isBoundary_iff.mp (by simpa using hb)

/-- A cut is right after a boundary. -/
theorem endsUnit_cut {soft strong count : Nat} {entries : List Entry}
    (h : cut soft strong entries = some count) : EndsUnit entries count := by
  have hsplit := newestUnit_append_olderUnits entries
  unfold cut at h
  dsimp only at h
  cases holder : olderUnits entries with
  | nil =>
      rw [holder] at h
      cases h
  | cons e older =>
      rw [holder, olderUnits_eq_cons holder] at h hsplit
      have hnewest : EndsUnit (newestUnit entries ++ .boundary :: older)
          ((newestUnit entries).length + 1) := endsUnit_of_boundary
      have hcut := endsUnit_cutFrom hnewest h
      rwa [hsplit] at hcut

/-- `kept` is the log `whole` without some of its oldest units. -/
structure Cut (whole kept : Log) : Prop where
  entries : ∃ dropped, whole.entries = kept.entries ++ dropped ∧
    (dropped = [] ∨ kept.entries.getLast? = some .boundary)
  disabled : kept.disabled = whole.disabled
  markedTick : kept.markedTick = whole.markedTick

theorem Cut.refl (log : Log) : Cut log log := ⟨⟨[], by simp⟩, rfl, rfl⟩

theorem cut_cutToLimits (settings : Settings) (log : Log) :
    Cut log (log.cutToLimits settings).2 := by
  unfold cutToLimits
  split
  · exact Cut.refl log
  · rename_i keep hcut
    exact ⟨⟨log.entries.drop keep, (List.take_append_drop keep log.entries).symm,
      Or.inr (endsUnit_cut hcut)⟩, rfl, rfl⟩

/-- Keeping all entries, or those down to a boundary, leaves a unit open if one was. -/
theorem atBoundary_retain {log : Log} {keep : Nat}
    (h : log.entries.drop keep = [] ∨ EndsUnit log.entries keep) :
    (log.retain keep).atBoundary = log.atBoundary := by
  unfold atBoundary head? retain
  dsimp only
  rw [List.head?_take]
  split
  · rename_i hkeep
    subst hkeep
    rcases h with hnone | hends
    · rw [List.drop_zero] at hnone
      rw [hnone]
      rfl
    · cases hends
  · rfl

theorem retain_length (log : Log) : log.retain log.length = log := by
  unfold retain length
  rw [List.take_length]

end Log

/-- Without a hook what is left are the newest entries, all of them or those down to a boundary. -/
theorem exists_retain_truncateUnder (settings : Settings) (depth : Nat) (log : Log) :
    ∃ keep, (truncateUnder none settings depth log).log = log.retain keep ∧
      (log.entries.drop keep = [] ∨ Log.EndsUnit log.entries keep) := by
  have hall : ∃ keep, log = log.retain keep ∧
      (log.entries.drop keep = [] ∨ Log.EndsUnit log.entries keep) :=
    ⟨log.length, log.retain_length.symm, Or.inl List.drop_length⟩
  unfold truncateUnder
  split
  · exact hall
  · split
    · exact hall
    · dsimp only
      unfold Log.cutToLimits
      split
      · exact hall
      · rename_i keep hcut
        exact ⟨keep, rfl, Or.inr (Log.endsUnit_cut hcut)⟩

/-- A truncation without a hook cuts the log, if it does anything. -/
theorem cut_truncateUnder (settings : Settings) (depth : Nat) (log : Log) :
    Log.Cut log (truncateUnder none settings depth log).log := by
  unfold truncateUnder
  split
  · exact Log.Cut.refl log
  · split
    · exact Log.Cut.refl log
    · exact Log.cut_cutToLimits settings log

end EditHistory
