/-
What the outcome of a truncation tells.

The outcome is read off the place where the walk ended, not off the entries that are gone.  If
the walk ran out of entries, the log is untouched; if it stopped at a boundary, the outcome is
a cut.  That the walk stopped means that entries are cut off, with one exception: the boundary
can be the last entry of the log, and be kept.  Then the outcome is a cut of no entries, and
nothing is changed.

`Log.EndsPast` says of a log that this is so, and it is the exact condition for an outcome that
does not tell what came of the log.  A truncation can leave such a log behind: one that stopped
at a boundary and kept it does, and a second truncation stops there again.
-/
import EditHistory.Proofs.Truncation.Again

namespace EditHistory

/-- The outcome tells what came of the log `whole`, of which `kept` is left. -/
structure Outcome.Truthful (outcome : Outcome) (whole kept : Log) : Prop where
  truncated : (∃ count dropped, outcome = .truncated count dropped) ↔ kept.length < whole.length
  counted : ∀ count dropped, outcome = .truncated count dropped →
    count = kept.length ∧ 0 < dropped ∧ count + dropped = whole.length
  untouched : outcome = .untouched ↔ kept = whole

namespace Log

variable {newer older : List Entry} {soft strong count b : Nat}
  {settings : Settings} {log : Log}

/-- With a boundary below these entries, the walk stops at that boundary and keeps it. -/
structure StopsBelow (soft strong : Nat) (newer : List Entry) : Prop where
  nonempty : newer ≠ []
  /-- It goes on at each boundary before. -/
  within : ∀ b ∈ cutPoints newer, costBefore newer b ≤ min soft strong
  past : min soft strong < Entry.totalCost newer
  /-- The strong limit still holds, or there is no boundary before. -/
  kept : Entry.totalCost newer ≤ strong ∨ cutPoints newer = []

/-- The log ends in a boundary, and that is the first that is past a limit. -/
def EndsPast (settings : Settings) (log : Log) : Prop :=
  log.disabled = false ∧ ∃ newer, log.entries = newer ++ [.boundary] ∧
    StopsBelow settings.softLimit settings.strongLimit newer

/-! ### A boundary at the old end -/

theorem cutPoints_append_boundary (h : newer ≠ []) :
    cutPoints (newer ++ [.boundary]) = cutPoints newer ++ [newer.length] := by
  have hlength : (newer ++ [Entry.boundary]).length = newer.length + 1 := by simp
  have hlast : IsCutPoint (newer ++ [.boundary]) newer.length :=
    ⟨List.length_pos_iff.mpr h, by simp⟩
  have hothers : ∀ b ∈ List.range newer.length,
      decide (IsCutPoint (newer ++ [.boundary]) b) = decide (IsCutPoint newer b) := by
    intro b hb
    refine decide_eq_decide.mpr ?_
    unfold IsCutPoint
    rw [List.getElem?_append_left (List.mem_range.mp hb)]
  unfold cutPoints
  rw [hlength, List.range_succ, List.filter_append, List.filter_congr hothers, List.filter_cons,
    if_pos (decide_eq_true hlast), List.filter_nil]

/-- What is newer than an entry costs the same whatever there is below. -/
theorem costBefore_append (h : b ≤ newer.length) :
    costBefore (newer ++ older) b = costBefore newer b := by
  unfold costBefore
  rw [List.take_append_of_le_length h]

theorem costBefore_length : costBefore newer newer.length = Entry.totalCost newer := by
  unfold costBefore
  rw [List.take_length]

/-- If no boundary before is past a limit, the one at the old end decides. -/
theorem cut_append_boundary_of_within (hnewer : newer ≠ [])
    (h : ∀ b ∈ cutPoints newer, costBefore newer b ≤ min soft strong) :
    cut soft strong (newer ++ [.boundary])
      = if min soft strong < Entry.totalCost newer then
          some ((if Entry.totalCost newer ≤ strong then newer.length
            else (cutPoints newer).getLastD newer.length) + 1)
        else none := by
  have hpoints := cutPoints_append_boundary hnewer
  have hwithin : ∀ b ∈ cutPoints newer,
      costBefore (newer ++ [.boundary]) b ≤ min soft strong := by
    intro b hb
    rw [costBefore_append (Nat.le_of_lt (lt_length_of_isCutPoint (mem_cutPoints.mp hb)))]
    exact h b hb
  have hcost : costBefore (newer ++ [.boundary]) newer.length = Entry.totalCost newer := by
    rw [costBefore_append (Nat.le_refl _), costBefore_length]
  by_cases hpast : min soft strong < Entry.totalCost newer
  · rw [if_pos hpast, cut_of_past hpoints hwithin (by rwa [hcost]), hcost]
  · rw [if_neg hpast, cut_eq_cutAmong, hpoints]
    refine cutAmong_of_within (List.forall_mem_append.mpr ⟨hwithin, fun b hb => ?_⟩)
    obtain rfl := List.mem_singleton.mp hb
    omega

/-- If one is, the walk ends there, and some of the entries are cut off. -/
theorem cut_append_boundary_of_past (hnewer : newer ≠ [])
    (h : ¬∀ b ∈ cutPoints newer, costBefore newer b ≤ min soft strong) :
    ∃ b < newer.length, cut soft strong (newer ++ [.boundary]) = some (b + 1) := by
  obtain ⟨before, first, after, hsplit, hbefore, hpast⟩ := exists_first_past h
  have hmem : ∀ b ∈ first :: before, b < newer.length := by
    intro b hb
    refine lt_length_of_isCutPoint (mem_cutPoints.mp ?_)
    rw [hsplit]
    rcases List.mem_cons.mp hb with rfl | hb
    · exact List.mem_append_right _ List.mem_cons_self
    · exact List.mem_append_left _ hb
  have hpoints : cutPoints (newer ++ [.boundary])
      = before ++ first :: (after ++ [newer.length]) := by
    rw [cutPoints_append_boundary hnewer, hsplit, List.append_assoc, List.cons_append]
  have hcost : ∀ b ∈ first :: before,
      costBefore (newer ++ [.boundary]) b = costBefore newer b := fun b hb =>
    costBefore_append (Nat.le_of_lt (hmem b hb))
  refine ⟨_, ?_, cut_of_past hpoints (fun b hb => ?_) ?_⟩
  · split
    · exact hmem first List.mem_cons_self
    · exact hmem _ (List.getLastD_mem_cons)
  · rw [hcost b (List.mem_cons_of_mem _ hb)]
    exact hbefore b hb
  · rwa [hcost first List.mem_cons_self]

/-- The walk stops at a boundary at the old end and keeps it in that one case. -/
theorem cut_append_boundary_eq_some : cut soft strong (newer ++ [.boundary]) = some (newer.length + 1)
    ↔ StopsBelow soft strong newer := by
  by_cases hnewer : newer = []
  · subst hnewer
    exact iff_of_false nofun fun h => h.nonempty rfl
  by_cases hwithin : ∀ b ∈ cutPoints newer, costBefore newer b ≤ min soft strong
  · rw [cut_append_boundary_of_within hnewer hwithin]
    by_cases hpast : min soft strong < Entry.totalCost newer
    · rw [if_pos hpast]
      by_cases hstrong : Entry.totalCost newer ≤ strong
      · rw [if_pos hstrong]
        exact iff_of_true rfl ⟨hnewer, hwithin, hpast, Or.inl hstrong⟩
      · rw [if_neg hstrong]
        cases hpoints : cutPoints newer with
        | nil => exact iff_of_true rfl ⟨hnewer, hwithin, hpast, Or.inr hpoints⟩
        | cons first points =>
            -- The walk falls back to the last boundary before.
            have hlast : (first :: points).getLastD newer.length < newer.length := by
              rw [List.getLastD_cons]
              exact lt_length_of_isCutPoint (mem_cutPoints.mp (hpoints ▸ List.getLastD_mem_cons))
            refine iff_of_false (fun hcut => ?_) fun h => ?_
            · have := Option.some.inj hcut
              omega
            · exact h.kept.elim hstrong fun hnone => by rw [hnone] at hpoints; cases hpoints
    · rw [if_neg hpast]
      exact iff_of_false nofun fun h => hpast h.past
  · obtain ⟨b, hb, hcut⟩ := cut_append_boundary_of_past hnewer hwithin
    rw [hcut]
    refine iff_of_false (fun hall => ?_) fun h => hwithin h.within
    have := Option.some.inj hall
    omega

/-- If the walk stops and all is kept, it stopped at a boundary at the old end. -/
theorem endsPast_iff (hon : log.disabled = false) : log.EndsPast settings ↔
    cut settings.softLimit settings.strongLimit log.entries = some log.length := by
  refine ⟨?_, fun hcut => ⟨hon, ?_⟩⟩
  · rintro ⟨-, newer, hentries, hstops⟩
    have hlength : log.length = newer.length + 1 := by simp [length, hentries]
    rw [hlength, hentries]
    exact cut_append_boundary_eq_some.mpr hstops
  · have hends : (log.entries.take log.entries.length).getLast? = some .boundary :=
      endsUnit_cut hcut
    rw [List.take_length] at hends
    obtain ⟨newer, hentries⟩ := List.getLast?_eq_some_iff.mp hends
    have hlength : log.length = newer.length + 1 := by simp [length, hentries]
    rw [hlength, hentries] at hcut
    exact ⟨newer, hentries, cut_append_boundary_eq_some.mp hcut⟩

/-! ### Whether the outcome tells the truth -/

theorem truthful_untouched (log : Log) : Outcome.untouched.Truthful log log :=
  ⟨iff_of_false nofun (Nat.lt_irrefl _), nofun, iff_of_true rfl rfl⟩

/-- A cut tells the truth if it drops something. -/
theorem truthful_truncated (h : count ≤ log.length) :
    (Outcome.truncated count (log.length - count)).Truthful log (log.retain count)
      ↔ count ≠ log.length := by
  have hlength := length_retain h
  refine ⟨fun htruthful hall => ?_, fun hsome => ⟨iff_of_true ⟨_, _, rfl⟩ ?_, ?_, ?_⟩⟩
  · obtain ⟨-, hdropped, -⟩ := htruthful.counted _ _ rfl
    omega
  · omega
  · rintro _ _ ⟨⟩
    omega
  · refine iff_of_false nofun fun hkept => hsome ?_
    rw [← hlength, hkept]

/-- The limits come to an outcome that tells the truth, unless the log ends past them. -/
theorem truthful_cutToLimits (hon : log.disabled = false) :
    (log.cutToLimits settings).1.Truthful log (log.cutToLimits settings).2
      ↔ ¬log.EndsPast settings := by
  rw [endsPast_iff hon]
  unfold cutToLimits
  cases hcut : cut settings.softLimit settings.strongLimit log.entries with
  | none => exact iff_of_true (truthful_untouched log) nofun
  | some count =>
      dsimp only
      rw [truthful_truncated (bounds_of_cut hcut).2]
      exact not_congr Option.some_inj.symm

end Log

/-! ### Truncations without a hook -/

variable {settings : Settings} {log : Log}

theorem truncateUnder_none (settings : Settings) (hon : log.disabled = false) :
    truncateUnder none settings 0 log
      = { result := .ok (log.cutToLimits settings).1, log := (log.cutToLimits settings).2,
          depth := 0, calls := [] } :=
  truncateUnder_of_calls_nil hon (truncateUnder_of_not_asks not_asks_none).1

/-- Of a log that ends past a limit it reports a cut, and drops nothing. -/
theorem truncateUnder_of_endsPast (h : log.EndsPast settings) : truncateUnder none settings 0 log
    = { result := .ok (.truncated log.length 0), log, depth := 0, calls := [] } := by
  rw [truncateUnder_none settings h.1, Log.cutToLimits_of_cut_length ((Log.endsPast_iff h.1).mp h)]

/-- A log that the limits have left, and that does not end past one, is untouched. -/
theorem truncateUnder_again (hon : log.disabled = false)
    (h : ¬(log.cutToLimits settings).2.EndsPast settings) :
    truncateUnder none settings 0 (log.cutToLimits settings).2
      = { result := .ok .untouched, log := (log.cutToLimits settings).2, depth := 0,
          calls := [] } := by
  have hkept : (log.cutToLimits settings).2.disabled = false :=
    (Log.cut_cutToLimits settings log).disabled.trans hon
  rcases Log.cut_cutToLimits_snd settings log with hnone | hall
  · rw [truncateUnder_none settings hkept, Log.cutToLimits_of_cut_none hnone]
  · exact absurd ((Log.endsPast_iff hkept).mpr hall) h

/--
**When the outcome tells the truth.**  A truncation without a hook, not held off, succeeds.
Its outcome tells what came of the log, unless the log ends in a boundary and that is the first
past a limit: then nothing is changed, and the outcome is a cut that drops no entry.  A second
truncation changes nothing, and says so but for that case.
-/
theorem truncation_outcome_truthful (settings : Settings) (log : Log) :
    ∃ outcome kept, truncateUnder none settings 0 log
        = { result := .ok outcome, log := kept, depth := 0, calls := [] } ∧
      (outcome.Truthful log kept ↔ ¬log.EndsPast settings) ∧
      (log.EndsPast settings → outcome = .truncated log.length 0 ∧ kept = log) ∧
      (truncateUnder none settings 0 kept).log = kept ∧
      (¬kept.EndsPast settings → (truncateUnder none settings 0 kept).result = .ok .untouched) ∧
      (kept.EndsPast settings →
        (truncateUnder none settings 0 kept).result = .ok (.truncated kept.length 0)) := by
  cases hon : log.disabled with
  | true =>
      have hoff := truncateUnder_of_off none settings hon
      have hends : ¬log.EndsPast settings := fun h => nomatch hon.symm.trans h.1
      refine ⟨_, _, hoff, iff_of_true (Log.truthful_untouched log) hends,
        fun h => absurd h hends, ?_, fun _ => ?_, fun h => absurd h hends⟩
      all_goals rw [hoff]
  | false =>
      have hfirst := truncateUnder_none settings hon
      refine ⟨_, _, hfirst, Log.truthful_cutToLimits hon, fun h => ?_, ?_, fun h => ?_, fun h => ?_⟩
      · rw [Log.cutToLimits_of_cut_length ((Log.endsPast_iff hon).mp h)]
        exact ⟨rfl, rfl⟩
      · have hagain : (truncateUnder none settings 0 (truncateUnder none settings 0 log).log).log
            = (truncateUnder none settings 0 log).log := again_of_not_asks not_asks_none
        rwa [hfirst] at hagain
      · rw [truncateUnder_again hon h]
      · rw [truncateUnder_of_endsPast h]

/--
Four units, cut at the second boundary because the third is past the strong limit: the cut
drops three entries and says so, and the second truncation finds the log untouched.
-/
theorem truncation_outcome_truthful_four_units :
    let settings : Settings := { softLimit := 100, strongLimit := 110, outerLimit := none }
    let log : Log := { entries := [.insertion 3 4, .boundary, .insertion 2 3, .boundary,
      .insertion 1 2, .boundary, .insertion 0 1] }
    let kept := (truncateUnder none settings 0 log).log
    (Outcome.truncated 4 3).Truthful log kept ∧
      (truncateUnder none settings 0 kept).result = .ok .untouched := by
  intro settings log kept
  obtain ⟨outcome, kept', hfirst, htruthful, -, -, hagain, -⟩ :=
    truncation_outcome_truthful settings log
  obtain rfl : kept = kept' := congrArg Truncation.log hfirst
  have houtcome : .ok (.truncated 4 3) = Except.ok outcome := congrArg Truncation.result hfirst
  obtain rfl := Except.ok.inj houtcome
  have hends : ¬log.EndsPast settings := (Log.endsPast_iff rfl).not.mpr (by decide)
  have hends' : ¬kept.EndsPast settings := (Log.endsPast_iff rfl).not.mpr (by decide)
  exact ⟨htruthful.mpr hends, hagain hends'⟩

/--
A session in which a truncation has nothing to do and reports a cut: the one before it stopped
at the boundary above the older of two insertions, which is past the soft limit.
-/
theorem truncation_reports_no_cut :
    let session := (Workspace.ofText []).later
      [.truncate ⟨0⟩, .document ⟨0⟩ (.insert ['b']), .sheet ⟨0⟩ .insertBoundary,
        .document ⟨0⟩ (.insert ['a']),
        .recorder (.restart { softLimit := 20, strongLimit := 100, outerLimit := none })]
    ∃ now, session.moment? ⟨0⟩ = some now ∧ now.recorder.hook.isNone ∧
      (truncateUnder none now.recorder.settings 0 now.doc.log).log = now.doc.log ∧
      (truncateUnder none now.recorder.settings 0 now.doc.log).result = .ok (.truncated 2 0) ∧
      ¬(Outcome.truncated 2 0).Truthful now.doc.log now.doc.log := by
  intro session
  have hsession : (session.moment? ⟨0⟩).any (fun now => now.recorder.hook.isNone ∧
      now.doc.log.disabled = false ∧ now.doc.log.length = 2 ∧
      Log.cut now.recorder.settings.softLimit now.recorder.settings.strongLimit now.doc.log.entries
        = some now.doc.log.length) := by decide +kernel
  obtain ⟨now, hnow, hfacts⟩ := (Option.any_eq_true _ _).mp hsession
  obtain ⟨hfree, hon, hlength, hcut⟩ := of_decide_eq_true hfacts
  have hagain := truncateUnder_of_endsPast ((Log.endsPast_iff hon).mpr hcut)
  rw [hlength] at hagain
  refine ⟨now, hnow, hfree, ?_, ?_, fun h => ?_⟩
  · rw [hagain]
  · rw [hagain]
  · exact Nat.lt_irrefl 0 (h.counted 2 0 rfl).2.1

end EditHistory
