/-
How large a log is after a truncation.

What is left of a log that was cut is within the strong limit, or is the newest unit
alone, but for the boundary that it ends with.  A log that was left alone can be larger
in one way.  The walk weighs a unit at the boundary below it, and below the oldest unit
there is none, unless the log was cut before: so an oldest unit that is open at its old
end stays, however large it is, as long as what is newer is within the limits.
-/
import Mathlib.Data.List.TakeWhile
import EditHistory.Proofs.Log.Sizes
import EditHistory.Proofs.Truncation.Tiers
import EditHistory.Proofs.Session.Course

namespace EditHistory

namespace Log

variable {entries : List Entry} {log kept : Log} {outcome : Outcome} {soft strong limit b : Nat}

/-! ### What is cut -/

/-- The size that truncation aims at: the strong limit or the newest unit, and a boundary. -/
def sizeBound (strong : Nat) (entries : List Entry) : Nat :=
  max strong (Entry.totalCost (newestUnit entries)) + Entry.boundary.cost

theorem totalCost_take (h : IsCutPoint entries b) :
    Entry.totalCost (entries.take (b + 1)) = costBefore entries b + Entry.boundary.cost := by
  rw [List.take_add_one, h.2]
  simp [costBefore]

theorem costBefore_newestUnit :
    costBefore entries (newestUnit entries).length = Entry.totalCost (newestUnit entries) := by
  have hsplit : (newestUnit entries ++ olderUnits entries).take (newestUnit entries).length
      = newestUnit entries := List.take_left
  rw [newestUnit_append_olderUnits] at hsplit
  unfold costBefore
  rw [hsplit]

/-- If not all of a list are within a limit, one is the first that is not. -/
theorem exists_first_past {size : Nat → Nat} {points : List Nat}
    (h : ¬∀ b ∈ points, size b ≤ limit) : ∃ before b after, points = before ++ b :: after ∧
      (∀ b' ∈ before, size b' ≤ limit) ∧ limit < size b := by
  induction points with
  | nil => exact absurd (fun b hb => by cases hb) h
  | cons b points ih =>
      by_cases hb : size b ≤ limit
      · obtain ⟨before, b', after, rfl, hbefore, hpast⟩ :=
          ih fun hall => h (List.forall_mem_cons.mpr ⟨hb, hall⟩)
        exact ⟨b :: before, b', after, rfl, List.forall_mem_cons.mpr ⟨hb, hbefore⟩, hpast⟩
      · exact ⟨[], b, points, rfl, fun b' hb' => (by cases hb'), Nat.not_le.mp hb⟩

/-- What is left of a log that was past a limit at some cut point is within the bound. -/
theorem Tiered.totalCost_le (h : Tiered soft strong log outcome kept)
    (hpast : ¬∀ b ∈ cutPoints log.entries, costBefore log.entries b ≤ min soft strong) :
    Entry.totalCost kept.entries ≤ sizeBound strong log.entries := by
  obtain ⟨before, b, after, hpoints, hbefore, hb⟩ := exists_first_past hpast
  obtain ⟨keep, dropped, hkeep, -, hkept, -⟩ := h.truncated before b after hpoints hbefore hb
  have hmem : ∀ b' ∈ before ++ b :: after, IsCutPoint log.entries b' := fun b' hb' =>
    mem_cutPoints.mp (hpoints ▸ hb')
  -- Above the cut there is no more than either of the two allows.
  obtain ⟨b', hb', hcut, hcost⟩ : ∃ b' ∈ before ++ b :: after, keep = b' + 1 ∧
      costBefore log.entries b' ≤ max strong (Entry.totalCost (newestUnit log.entries)) := by
    by_cases hstrong : costBefore log.entries b ≤ strong
    · rw [if_pos hstrong] at hkeep
      exact ⟨b, by simp, hkeep, by omega⟩
    · rw [if_neg hstrong] at hkeep
      cases hlast : before.getLast? with
      | none =>
          obtain rfl := List.getLast?_eq_none_iff.mp hlast
          have hfirst := head_cutPoints hpoints
          refine ⟨b, by simp, hkeep, ?_⟩
          rw [hfirst, costBefore_newestUnit]
          exact Nat.le_max_right _ _
      | some b' =>
          have hb' := List.mem_of_getLast? hlast
          have hwithin := hbefore b' hb'
          rw [List.getLastD_eq_getLast?, hlast] at hkeep
          exact ⟨b', List.mem_append_left _ hb', hkeep, by omega⟩
  rw [hkept]
  show Entry.totalCost (log.entries.take keep) ≤ _
  rw [hcut, totalCost_take (hmem b' hb')]
  exact Nat.add_le_add_right hcost _

/-! ### What is left alone -/

/-- The entries down to the oldest boundary, and the oldest unit below it. -/
theorem exists_oldest_boundary (entries : List Entry) :
    (∀ e ∈ entries, e.isBoundary = false) ∨ ∃ newer oldest,
      entries = newer ++ .boundary :: oldest ∧ ∀ e ∈ oldest, e.isBoundary = false := by
  induction entries with
  | nil => exact Or.inl fun e he => by cases he
  | cons e older ih =>
      rcases ih with hnone | ⟨newer, oldest, rfl, hnone⟩
      · cases he : e.isBoundary with
        | false => exact Or.inl (List.forall_mem_cons.mpr ⟨he, hnone⟩)
        | true =>
            rw [Entry.isBoundary_iff] at he
            exact Or.inr ⟨[], older, by rw [he, List.nil_append], hnone⟩
      · exact Or.inr ⟨e :: newer, oldest, rfl, hnone⟩

/-- A log without a boundary below its newest entry is one unit. -/
theorem newestUnit_eq_self {e : Entry} {older : List Entry}
    (h : ∀ e ∈ older, e.isBoundary = false) : newestUnit (e :: older) = e :: older := by
  rw [newestUnit, List.takeWhile_eq_self_iff.mpr fun e he => by rw [h e he]; rfl]

/--
The log is larger than truncation aims at, and only because of an oldest unit that no
boundary closes at its old end: what is newer is within both limits.
-/
def OldestOversized (soft strong : Nat) (entries : List Entry) : Prop :=
  sizeBound strong entries < Entry.totalCost entries ∧
    ∃ newer oldest, entries = newer ++ .boundary :: oldest ∧ newer ≠ [] ∧ oldest ≠ [] ∧
      (∀ e ∈ oldest, e.isBoundary = false) ∧ Entry.totalCost newer ≤ min soft strong

theorem totalCost_le_of_one_unit (h : newestUnit entries = entries) :
    Entry.totalCost entries ≤ sizeBound strong entries := by
  unfold sizeBound
  rw [h]
  omega

/-- A log that is past a limit at no cut point is within the bound or has a large oldest unit. -/
theorem totalCost_le_or_oldestOversized
    (h : ∀ b ∈ cutPoints entries, costBefore entries b ≤ min soft strong) :
    Entry.totalCost entries ≤ sizeBound strong entries ∨ OldestOversized soft strong entries := by
  by_cases hle : Entry.totalCost entries ≤ sizeBound strong entries
  · exact Or.inl hle
  have hlt := Nat.not_le.mp hle
  rcases exists_oldest_boundary entries with hnone | ⟨newer, oldest, hsplit, hnone⟩
  · refine Or.inl (totalCost_le_of_one_unit ?_)
    cases entries with
    | nil => rfl
    | cons e older => exact newestUnit_eq_self (List.forall_mem_cons.mp hnone).2
  · by_cases hnewer : newer = []
    · subst hsplit hnewer
      exact Or.inl (totalCost_le_of_one_unit (newestUnit_eq_self hnone))
    · have hpoint : IsCutPoint entries newer.length := by
        refine ⟨List.length_pos_iff.mpr hnewer, ?_⟩
        rw [hsplit]
        simp
      have hcost : Entry.totalCost newer ≤ min soft strong := by
        have hwithin := h _ (mem_cutPoints.mpr hpoint)
        rwa [costBefore, hsplit, List.take_left] at hwithin
      refine Or.inr ⟨hlt, newer, oldest, hsplit, hnewer, fun holdest => ?_, hnone, hcost⟩
      -- A log that ends in a boundary has nothing below its last cut point.
      rw [hsplit, holdest, Entry.totalCost_append, Entry.totalCost_cons] at hlt
      unfold sizeBound at hlt
      simp only [Entry.totalCost_nil] at hlt
      omega

/-- A log that was cut before, and so ends in a boundary, has no such oldest unit. -/
theorem not_oldestOversized_of_closed (h : entries.getLast? = some .boundary) :
    ¬OldestOversized soft strong entries := by
  rintro ⟨-, newer, oldest, rfl, -, hne, hnone, -⟩
  obtain ⟨last, hlast⟩ := Option.isSome_iff_exists.mp (List.getLast?_isSome.mpr hne)
  rw [List.getLast?_append, List.getLast?_cons, hlast] at h
  have hboundary : last = .boundary := by simpa using h
  have hno := hnone last (List.mem_of_getLast? hlast)
  rw [hboundary] at hno
  cases hno

/-- The limits leave a log within the bound, or alone and with a large oldest unit. -/
theorem totalCost_cutToLimits (settings : Settings) (log : Log) :
    Entry.totalCost (log.cutToLimits settings).2.entries
        ≤ sizeBound settings.strongLimit log.entries ∨
      ((log.cutToLimits settings).1 = .untouched ∧ (log.cutToLimits settings).2 = log ∧
        OldestOversized settings.softLimit settings.strongLimit log.entries) := by
  have htiered := tiered_cutToLimits settings log
  by_cases hwithin : ∀ b ∈ cutPoints log.entries,
      costBefore log.entries b ≤ min settings.softLimit settings.strongLimit
  · obtain ⟨houtcome, hkept⟩ := htiered.untouched hwithin
    rw [hkept]
    exact (totalCost_le_or_oldestOversized hwithin).imp_right fun h => ⟨houtcome, rfl, h⟩
  · exact Or.inl (htiered.totalCost_le hwithin)

end Log

/--
**What truncation leaves is bounded.**  After a truncation that was not held off and asked
no hook, the whole log has a size, and that is at most a boundary more than the strong
limit and the newest unit, whichever is larger.  The one exception is a log that was left
alone with an oldest unit too large, open at its old end; so there is none once the log
ends in a boundary, as it does from the first cut on.
-/
theorem truncation_bounds_size (hook : Option Hook) (settings : Settings) (log : Log)
    (hon : log.disabled = false) (hcalls : (truncateUnder hook settings 0 log).calls = []) :
    ∃ outcome size, (truncateUnder hook settings 0 log).result = .ok outcome ∧
      (truncateUnder hook settings 0 log).log.sizeWithin none = .ok (some size) ∧
      (size ≤ Log.sizeBound settings.strongLimit log.entries ∨
        (outcome = .untouched ∧ (truncateUnder hook settings 0 log).log = log ∧
          Log.OldestOversized settings.softLimit settings.strongLimit log.entries)) ∧
      (log.entries.getLast? = some .boundary →
        size ≤ Log.sizeBound settings.strongLimit log.entries) := by
  rw [truncateUnder_of_calls_nil hon hcalls]
  have hkept : (log.cutToLimits settings).2.disabled = false :=
    (Log.cut_cutToLimits settings log).disabled.trans hon
  have hbound := Log.totalCost_cutToLimits settings log
  refine ⟨_, _, rfl, Log.sizeWithin_none hkept, hbound, fun hclosed => ?_⟩
  exact hbound.resolve_right fun h => Log.not_oldestOversized_of_closed hclosed h.2.2

/-- Of two closed units the older one, which is too large, is dropped; the boundary stays. -/
theorem truncation_bounds_size_two_units :
    let settings : Settings := { softLimit := 40, strongLimit := 60, outerLimit := none }
    let log : Log :=
      { entries := [.insertion 2 3, .insertion 0 1, .boundary, .deletion ['a', 'b'] 0, .boundary] }
    ∃ size, (truncateUnder none settings 0 log).log.sizeWithin none = .ok (some size) ∧
      size ≤ 80 := by
  intro settings log
  obtain ⟨outcome, size, -, hsize, -, hbound⟩ :=
    truncation_bounds_size none settings log rfl rfl
  exact ⟨size, hsize, hbound rfl⟩

/--
A session in which truncation finds a log of more than twice the strong limit to fit: its
older unit, a deletion, is the first ever recorded.
-/
theorem truncation_leaves_oldest_unit :
    ∃ now, ((Workspace.ofText ['a', 'b']).later
        [.document ⟨0⟩ (.insert ['c']), .sheet ⟨0⟩ .insertBoundary,
          .document ⟨0⟩ (.deleteRange 0 2),
          .recorder (.restart { softLimit := 40, strongLimit := 60, outerLimit := none })]).moment?
            ⟨0⟩ = some now ∧
      now.recorder.settings.softLimit ≤ now.recorder.settings.strongLimit ∧
      (truncateUnder now.recorder.hook now.recorder.settings 0 now.doc.log).calls = [] ∧
      (truncateUnder now.recorder.hook now.recorder.settings 0 now.doc.log).result
        = .ok .untouched ∧
      (truncateUnder now.recorder.hook now.recorder.settings 0 now.doc.log).log.sizeWithin none
        = .ok (some 145) ∧
      ¬145 ≤ Log.sizeBound now.recorder.settings.strongLimit now.doc.log.entries := by
  exact ⟨_, rfl, by decide, rfl, rfl, rfl, by decide⟩

end EditHistory
