/-
Truncation cuts by tiers.

The walk of a truncation carries a size, a place and a fall-back, and stops at the first
boundary that is past a limit.  Seen from outside, all that counts are the cut points of
the log, the places of its boundaries but for one at its head, and the cost of what is
newer than each.  The first cut point with more cost above it than either limit allows
decides.  If the strong limit still holds there, the log ends with that boundary; if not,
with the one before it, and with that boundary all the same if it is the first.

`Tiered` says this of an outcome and a log.  A hook that declines hands over its log to
the same rule.
-/
import EditHistory.Proofs.Truncation

namespace EditHistory

namespace Log

/-! ### Cut points -/

/-- Whether the entry at the place is a boundary, and not the newest entry. -/
def IsCutPoint (entries : List Entry) (i : Nat) : Prop :=
  0 < i ∧ entries[i]? = some .boundary

instance (entries : List Entry) (i : Nat) : Decidable (IsCutPoint entries i) :=
  inferInstanceAs (Decidable (_ ∧ _))

/-- The places at which a log can be cut, from the newest on. -/
def cutPoints (entries : List Entry) : List Nat :=
  (List.range entries.length).filter (IsCutPoint entries ·)

/-- The cost of the entries that are newer than the one at the place. -/
def costBefore (entries : List Entry) (i : Nat) : Nat := Entry.totalCost (entries.take i)

variable {entries newer older : List Entry} {soft strong b : Nat}

theorem mem_cutPoints : b ∈ cutPoints entries ↔ IsCutPoint entries b := by
  simp only [cutPoints, List.mem_filter, List.mem_range, decide_eq_true_eq, and_iff_right_iff_imp]
  intro h
  exact (List.getElem?_eq_some_iff.mp h.2).1

theorem lt_length_of_isCutPoint (h : IsCutPoint entries b) : b < entries.length :=
  (List.getElem?_eq_some_iff.mp h.2).1

/-- The newest unit holds no cut point. -/
theorem length_newestUnit_le (h : IsCutPoint entries b) : (newestUnit entries).length ≤ b := by
  refine Nat.le_of_not_lt fun hlt => ?_
  obtain ⟨hpos, hboundary⟩ := h
  rw [← newestUnit_append_olderUnits entries, List.getElem?_append_left hlt] at hboundary
  cases entries with
  | nil => cases hboundary
  | cons newest older =>
      obtain ⟨i, rfl⟩ := Nat.exists_eq_succ_of_ne_zero (Nat.pos_iff_ne_zero.mp hpos)
      have hmem : Entry.boundary ∈ older.takeWhile (!·.isBoundary) :=
        List.mem_of_getElem? hboundary
      cases List.all_eq_true.mp List.all_takeWhile _ hmem

/-- The boundary that closes the newest unit is the first cut point. -/
theorem cutPoints_eq : cutPoints entries
    = (List.range' (newestUnit entries).length (olderUnits entries).length).filter
        (IsCutPoint entries ·) := by
  have hlength : entries.length = (newestUnit entries).length + (olderUnits entries).length := by
    rw [← List.length_append, newestUnit_append_olderUnits]
  have hnone : (List.range' 0 (newestUnit entries).length).filter (IsCutPoint entries ·) = [] := by
    rw [List.filter_eq_nil_iff]
    intro b hb hcut
    have hlt : b < (newestUnit entries).length := by simpa using hb
    exact absurd (length_newestUnit_le (of_decide_eq_true hcut)) (Nat.not_le.mpr hlt)
  unfold cutPoints
  rw [List.range_eq_range', hlength, ← List.range'_append_1, List.filter_append, hnone,
    List.nil_append, Nat.zero_add]

theorem head_cutPoints {points : List Nat} (h : cutPoints entries = b :: points) :
    b = (newestUnit entries).length := by
  have hsplit := newestUnit_append_olderUnits entries
  rw [cutPoints_eq] at h
  cases holder : olderUnits entries with
  | nil =>
      rw [holder] at h
      cases h
  | cons e older =>
      rw [holder, olderUnits_eq_cons holder] at hsplit
      have hfirst : IsCutPoint entries (newestUnit entries).length := by
        refine ⟨?_, ?_⟩
        · cases entries with
          | nil => cases holder
          | cons newest rest => exact Nat.succ_pos _
        · have hget : (newestUnit entries ++ .boundary :: older)[(newestUnit entries).length]?
              = some .boundary := by simp
          rwa [hsplit] at hget
      rw [holder, List.length_cons, List.range'_succ, List.filter_cons,
        if_pos (decide_eq_true hfirst)] at h
      exact (List.cons.inj h).1.symm

/-! ### The walk, from cut point to cut point -/

/--
The choice among cut points: how many entries to keep if `size` tells the cost above each
of them, and `fallback` is the cut point before them.
-/
def cutAmong (soft strong : Nat) (size : Nat → Nat) (fallback : Nat) : List Nat → Option Nat
  | [] => none
  | b :: points =>
    if strong < size b then some (fallback + 1)
    else if soft < size b then some (b + 1)
    else cutAmong soft strong size b points

/-- The walk makes its choice at cut points only. -/
theorem cutFrom_eq_cutAmong {fallback : Nat} (hnewer : newer ≠ []) :
    cutFrom soft strong newer.length (Entry.totalCost newer) (fallback + 1) older
      = cutAmong soft strong (costBefore (newer ++ older)) fallback
          ((List.range' newer.length older.length).filter (IsCutPoint (newer ++ older) ·)) := by
  induction older generalizing newer fallback with
  | nil => rfl
  | cons e older ih =>
      have hassoc : newer ++ e :: older = (newer ++ [e]) ++ older := by simp
      have hlen : (newer ++ [e]).length = newer.length + 1 := by simp
      have hcost : Entry.totalCost (newer ++ [e]) = Entry.totalCost newer + e.cost := by simp
      have hcut : IsCutPoint (newer ++ e :: older) newer.length ↔ e.isBoundary = true := by
        simp [IsCutPoint, List.length_pos_iff.mpr hnewer]
      have hsize : costBefore (newer ++ e :: older) newer.length = Entry.totalCost newer := by
        unfold costBefore
        rw [List.take_left]
      have hrest := fun fallback => @ih (newer ++ [e]) fallback (by simp)
      simp only [← hassoc, hlen, hcost] at hrest
      rw [cutFrom, List.length_cons, List.range'_succ, List.filter_cons]
      by_cases he : e.isBoundary = true
      · rw [if_pos he, if_pos (decide_eq_true (hcut.mpr he)), cutAmong, hsize, hrest]
      · rw [if_neg he, if_neg fun hc => he (hcut.mp (of_decide_eq_true hc)), hrest]

theorem cut_eq_cutAmong : cut soft strong entries
    = cutAmong soft strong (costBefore entries) (newestUnit entries).length
        (cutPoints entries) := by
  have hsplit := newestUnit_append_olderUnits entries
  unfold cut
  dsimp only
  by_cases hempty : newestUnit entries = []
  · obtain rfl : entries = [] := by
      cases entries with
      | nil => rfl
      | cons newest rest => cases hempty
    rfl
  · rw [cutFrom_eq_cutAmong hempty, hsplit, ← cutPoints_eq]

section Choice

variable {size : Nat → Nat} {fallback keep : Nat} {points before after : List Nat}

theorem cutAmong_of_within (h : ∀ b ∈ points, size b ≤ min soft strong) :
    cutAmong soft strong size fallback points = none := by
  induction points generalizing fallback with
  | nil => rfl
  | cons b points ih =>
      have hb := h b List.mem_cons_self
      rw [cutAmong, if_neg (by omega), if_neg (by omega)]
      exact ih fun b' hb' => h b' (List.mem_cons_of_mem _ hb')

/-- The first cut point past a limit is the cut if the strong limit holds, or the one before. -/
theorem cutAmong_of_past (hbefore : ∀ b' ∈ before, size b' ≤ min soft strong)
    (hb : min soft strong < size b) :
    cutAmong soft strong size fallback (before ++ b :: after)
      = some ((if size b ≤ strong then b else before.getLastD fallback) + 1) := by
  induction before generalizing fallback with
  | nil =>
      rw [List.nil_append, cutAmong, List.getLastD_nil]
      by_cases hstrong : size b ≤ strong
      · rw [if_neg (by omega), if_pos (by omega), if_pos hstrong]
      · rw [if_pos (by omega), if_neg hstrong]
  | cons b' before ih =>
      have hb' := hbefore b' List.mem_cons_self
      rw [List.cons_append, cutAmong, if_neg (by omega), if_neg (by omega), List.getLastD_cons]
      exact ih fun b'' hb'' => hbefore b'' (List.mem_cons_of_mem _ hb'')

/-- A cut is right after a cut point, or after the fall-back. -/
theorem cutAmong_mem (h : cutAmong soft strong size fallback points = some keep) :
    ∃ b ∈ fallback :: points, keep = b + 1 := by
  induction points generalizing fallback with
  | nil => cases h
  | cons b points ih =>
      rw [cutAmong] at h
      split at h
      · exact ⟨fallback, List.mem_cons_self, (Option.some.inj h).symm⟩
      · split at h
        · exact ⟨b, by simp, (Option.some.inj h).symm⟩
        · obtain ⟨b', hb', hkeep⟩ := ih h
          exact ⟨b', List.mem_cons_of_mem _ hb', hkeep⟩

end Choice

/-! ### Tiers -/

/-- What the limits make of a log: `outcome` tells how it went, and `kept` is what is left. -/
structure Tiered (soft strong : Nat) (log : Log) (outcome : Outcome) (kept : Log) : Prop where
  /-- What is within both limits is left alone. -/
  untouched : (∀ b ∈ cutPoints log.entries, costBefore log.entries b ≤ min soft strong) →
    outcome = .untouched ∧ kept = log
  /-- At the first cut point past a limit the strong limit decides; the first of all is kept. -/
  truncated : ∀ before b after, cutPoints log.entries = before ++ b :: after →
    (∀ b' ∈ before, costBefore log.entries b' ≤ min soft strong) →
    min soft strong < costBefore log.entries b →
    ∃ keep dropped,
      keep = (if costBefore log.entries b ≤ strong then b else before.getLastD b) + 1 ∧
      outcome = .truncated keep dropped ∧ kept = log.retain keep ∧ kept.length = keep ∧
      keep + dropped = log.length
  /-- Nothing is changed but that oldest entries are gone. -/
  retained : kept.entries <+: log.entries
  closed : outcome ≠ .untouched → kept.entries.getLast? = some .boundary
  newest : newestUnit log.entries <+: kept.entries

theorem isCutPoint_of_cut {keep : Nat} (h : cut soft strong entries = some keep) :
    ∃ b, IsCutPoint entries b ∧ keep = b + 1 := by
  rw [cut_eq_cutAmong] at h
  obtain ⟨b, hb, hkeep⟩ := cutAmong_mem h
  refine ⟨b, mem_cutPoints.mp ?_, hkeep⟩
  cases hpoints : cutPoints entries with
  | nil =>
      rw [hpoints] at h
      cases h
  | cons first points =>
      rcases List.mem_cons.mp hb with rfl | hb
      · rw [← head_cutPoints hpoints]
        exact List.mem_cons_self
      · rwa [← hpoints]

theorem cut_of_past {before after : List Nat} (hpoints : cutPoints entries = before ++ b :: after)
    (hbefore : ∀ b' ∈ before, costBefore entries b' ≤ min soft strong)
    (hb : min soft strong < costBefore entries b) : cut soft strong entries
      = some ((if costBefore entries b ≤ strong then b else before.getLastD b) + 1) := by
  rw [cut_eq_cutAmong, hpoints, cutAmong_of_past hbefore hb]
  cases before with
  | nil => rw [List.getLastD_nil, List.getLastD_nil, head_cutPoints hpoints]
  | cons first before => rw [List.getLastD_cons, List.getLastD_cons]

/-- The limits cut a log by tiers. -/
theorem tiered_cutToLimits (settings : Settings) (log : Log) :
    Tiered settings.softLimit settings.strongLimit log (log.cutToLimits settings).1
      (log.cutToLimits settings).2 := by
  have hsplit := newestUnit_append_olderUnits log.entries
  unfold cutToLimits
  cases hcut : cut settings.softLimit settings.strongLimit log.entries with
  | none =>
      refine ⟨fun _ => ⟨rfl, rfl⟩, fun before b after hpoints hbefore hb => ?_,
        List.prefix_refl _, fun hc => absurd rfl hc, ⟨_, hsplit⟩⟩
      rw [cut_of_past hpoints hbefore hb] at hcut
      cases hcut
  | some keep =>
      obtain ⟨point, hpoint, hkeep⟩ := isCutPoint_of_cut hcut
      have hlength : keep ≤ log.length := by
        have hlt := lt_length_of_isCutPoint hpoint
        unfold length
        omega
      refine ⟨fun hwithin => ?_, fun before b after hpoints hbefore hb => ?_,
        List.take_prefix _ _, fun _ => endsUnit_cut hcut, ?_⟩
      · rw [cut_eq_cutAmong, cutAmong_of_within hwithin] at hcut
        cases hcut
      · rw [cut_of_past hpoints hbefore hb] at hcut
        refine ⟨keep, log.length - keep, (Option.some.inj hcut).symm, rfl, rfl, ?_, by omega⟩
        exact List.length_take_of_le hlength
      · have hunit := length_newestUnit_le hpoint
        show newestUnit log.entries <+: log.entries.take keep
        exact (List.prefix_of_prefix_length_le ⟨_, hsplit⟩ (List.take_prefix _ _) (by
          rw [List.length_take_of_le hlength]
          omega))

end Log

/-! ### Truncation, hook or no hook -/

section Truncation

variable {hook : Option Hook} {settings : Settings} {log : Log}

theorem Hook.calls_run (hook : Hook) (settings : Settings) (size depth : Nat) (log : Log) :
    (hook.run settings size depth log).calls ≠ [] := by
  obtain ⟨actions, answer⟩ := hook
  unfold Hook.run
  cases answer <;> simp

/-- Without a call of the hook it is the limits that decide. -/
theorem truncateUnder_of_calls_nil (hon : log.disabled = false)
    (hcalls : (truncateUnder hook settings 0 log).calls = []) :
    truncateUnder hook settings 0 log
      = { result := .ok (log.cutToLimits settings).1, log := (log.cutToLimits settings).2,
          depth := 0, calls := [] } := by
  unfold truncateUnder at hcalls ⊢
  rw [if_neg (Nat.lt_irrefl 0), if_neg (by simp [hon])] at hcalls ⊢
  dsimp only at hcalls ⊢
  cases hook with
  | none => rfl
  | some hook =>
      cases houter : settings.outerLimit.any (· < Entry.totalCost (Log.newestUnit log.entries)) with
      | false => rfl
      | true =>
          rw [houter] at hcalls
          exact absurd hcalls (hook.calls_run settings _ _ log)

/-- The limits decide on the log that a hook leaves which is called and declines. -/
theorem truncateUnder_of_declined {actions : List HookAction} (hon : log.disabled = false)
    (hcalls : (truncateUnder (some (.mk actions .declined)) settings 0 log).calls ≠ []) :
    (truncateUnder (some (.mk actions .declined)) settings 0 log).result
        = .ok ((HookAction.runAll actions 1 log).log.cutToLimits settings).1 ∧
      (truncateUnder (some (.mk actions .declined)) settings 0 log).log
        = ((HookAction.runAll actions 1 log).log.cutToLimits settings).2 := by
  unfold truncateUnder at hcalls ⊢
  rw [if_neg (Nat.lt_irrefl 0), if_neg (by simp [hon])] at hcalls ⊢
  dsimp only at hcalls ⊢
  cases houter : settings.outerLimit.any (· < Entry.totalCost (Log.newestUnit log.entries)) with
  | false =>
      rw [houter] at hcalls
      exact absurd rfl hcalls
  | true => exact ⟨rfl, rfl⟩

end Truncation

/--
**Truncation cuts by tiers.**  Truncating a log that is switched on, while nothing holds
it off, succeeds and cuts by tiers, whatever the limits and in whatever order: the log
itself if no hook is called, and the log as the hook leaves it if one is, and declines.
-/
theorem truncation_cuts_by_tiers (hook : Option Hook) (settings : Settings) (log : Log)
    (hon : log.disabled = false) :
    ((truncateUnder hook settings 0 log).calls = [] →
      ∃ outcome, (truncateUnder hook settings 0 log).result = .ok outcome ∧
        Log.Tiered settings.softLimit settings.strongLimit log outcome
          (truncateUnder hook settings 0 log).log) ∧
    ∀ actions, hook = some (.mk actions .declined) →
      (truncateUnder hook settings 0 log).calls ≠ [] →
      ∃ outcome, (truncateUnder hook settings 0 log).result = .ok outcome ∧
        Log.Tiered settings.softLimit settings.strongLimit (HookAction.runAll actions 1 log).log
          outcome (truncateUnder hook settings 0 log).log := by
  refine ⟨fun hcalls => ?_, fun actions hhook hcalls => ?_⟩
  · rw [truncateUnder_of_calls_nil hon hcalls]
    exact ⟨_, rfl, Log.tiered_cutToLimits settings log⟩
  · subst hhook
    obtain ⟨hresult, hlog⟩ := truncateUnder_of_declined hon hcalls
    rw [hresult, hlog]
    exact ⟨_, rfl, Log.tiered_cutToLimits settings _⟩

/--
Four units of one insertion each, and limits that the third boundary is past: the log ends
with the second.  So it does if a hook takes away the oldest unit first, and declines.
-/
theorem truncation_cuts_by_tiers_four_units :
    let log : Log := { entries := [.insertion 3 4, .boundary, .insertion 2 3, .boundary,
      .insertion 1 2, .boundary, .insertion 0 1] }
    let settings : Settings := { softLimit := 100, strongLimit := 110, outerLimit := some 20 }
    ((truncateUnder none settings 0 log).result = .ok (.truncated 4 3) ∧
        (truncateUnder none settings 0 log).log.entries
          = [.insertion 3 4, .boundary, .insertion 2 3, .boundary]) ∧
      (truncateUnder (some (.mk [.retain 6] .declined)) settings 0 log).result
        = .ok (.truncated 4 2) := by
  intro log settings
  have hpast (log : Log) (hpoints : Log.cutPoints log.entries = [1, 3] ++ 5 :: [])
      (hcosts : Log.costBefore log.entries 1 = 32 ∧ Log.costBefore log.entries 3 = 80 ∧
        Log.costBefore log.entries 5 = 128) {outcome : Outcome} {kept : Log}
      (h : Log.Tiered 100 110 log outcome kept) :
      ∃ dropped, outcome = .truncated 4 dropped ∧ kept = log.retain 4 ∧
        4 + dropped = log.length := by
    obtain ⟨keep, dropped, hkeep, houtcome, hkept, -, hdropped⟩ :=
      h.truncated [1, 3] 5 [] hpoints (by simp [hcosts]) (by simp [hcosts])
    obtain rfl : keep = 4 := by simpa [hcosts] using hkeep
    exact ⟨dropped, houtcome, hkept, hdropped⟩
  refine ⟨?_, ?_⟩
  · obtain ⟨outcome, hresult, htiered⟩ := (truncation_cuts_by_tiers none settings log rfl).1 rfl
    obtain ⟨dropped, houtcome, hkept, hdropped⟩ :=
      hpast log (by decide) (by decide) htiered
    obtain rfl : dropped = 3 := Nat.add_left_cancel (show 4 + dropped = 4 + 3 from hdropped)
    exact ⟨houtcome ▸ hresult, by rw [hkept]; rfl⟩
  · obtain ⟨outcome, hresult, htiered⟩ :=
      (truncation_cuts_by_tiers (some (.mk [.retain 6] .declined)) settings log rfl).2
        [.retain 6] rfl (by simp [truncateUnder, Hook.run, log, settings, Log.newestUnit,
          Entry.cost, Entry.linkCost, Entry.cellCost])
    obtain ⟨dropped, houtcome, -, hdropped⟩ :=
      hpast (HookAction.runAll [.retain 6] 1 log).log (by decide) (by decide) htiered
    obtain rfl : dropped = 2 := Nat.add_left_cancel (show 4 + dropped = 4 + 2 from hdropped)
    exact houtcome ▸ hresult

end EditHistory
