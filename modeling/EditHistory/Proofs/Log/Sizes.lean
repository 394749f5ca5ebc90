/-
The size of a log, and of its newest units.

Two walks know what a unit is.  The one that counts looks for entries between the
boundaries, the one that measures for the boundaries below the newest entry.  They agree
because boundaries are never neighbours: a boundary that is crossed has entries above it,
and entries below it unless the log ends there.  So a size that is limited to some units is
that of the log as far as the boundary that closes the last of them, and of the whole log
exactly if there are not more of them.
-/
import Mathlib.Data.List.Chain
import EditHistory.Proofs.Ledger

namespace EditHistory

namespace Log

variable {e : Entry} {current entries newer older newest : List Entry} {log : Log}
  {count count' limit crossed : Nat}

/-! ### Cost -/

/-- The newest entries of some cost no more than all of them. -/
theorem totalCost_le_of_newest (h : newest <+: entries) :
    Entry.totalCost newest ≤ Entry.totalCost entries := by
  obtain ⟨older, rfl⟩ := h
  rw [Entry.totalCost_append]
  exact Nat.le_add_right _ _

/-- They cost less, unless they are all of them. -/
theorem eq_of_totalCost_eq (h : newest <+: entries)
    (hcost : Entry.totalCost newest = Entry.totalCost entries) : newest = entries := by
  obtain ⟨older, rfl⟩ := h
  cases older with
  | nil => exact (List.append_nil newest).symm
  | cons e older =>
      rw [Entry.totalCost_append, Entry.totalCost_cons] at hcost
      have hpos := e.cost_pos
      omega

/-! ### Boundaries that are not neighbours -/

/-- No two boundaries are neighbours. -/
def Apart (entries : List Entry) : Prop :=
  entries.IsChain fun newer older => ¬(newer = .boundary ∧ older = .boundary)

instance (entries : List Entry) : Decidable (Apart entries) :=
  inferInstanceAs (Decidable (List.IsChain _ _))

theorem Apart.tail (h : Apart (e :: older)) : Apart older := List.IsChain.tail h

theorem Apart.head?_ne (h : Apart (.boundary :: older)) : older.head? ≠ some .boundary := by
  cases older with
  | nil => nofun
  | cons e older =>
      intro he
      exact (List.isChain_cons_cons.mp h).1 ⟨rfl, Option.some.inj he⟩

/-- A grammatical log is like that. -/
theorem Grammatical.apart (h : log.Grammatical) : Apart log.entries := by
  refine List.isChain_iff_forall_rel_of_append_cons_cons.mpr ?_
  rintro a b newer older hentries ⟨rfl, rfl⟩
  exact h.boundary newer _ hentries rfl

/-! ### What is measured -/

/-- The entries up to the `count`-th boundary, that one included. -/
def upToBoundary (count : Nat) : List Entry → List Entry
  | [] => []
  | e :: older =>
    if e.isBoundary then
      if count ≤ 1 then [e] else e :: upToBoundary (count - 1) older
    else e :: upToBoundary count older

/-- The entries that are measured for the newest `count` units. -/
def measured (count : Nat) : List Entry → List Entry
  | [] => []
  | newest :: older => newest :: upToBoundary count older

theorem costWithin_some (limit crossed : Nat) (entries : List Entry) :
    costWithin (some limit) crossed entries
      = Entry.totalCost (upToBoundary (limit - crossed) entries) := by
  induction entries generalizing crossed with
  | nil => rfl
  | cons e older ih =>
      have hlimit : (some limit).any (· ≤ crossed + 1) = decide (limit - crossed ≤ 1) := by
        rw [Option.any_some, decide_eq_decide]
        omega
      unfold costWithin upToBoundary
      rw [ih, ih, hlimit, Nat.sub_add_eq]
      by_cases he : e.isBoundary = true
      · by_cases hlast : limit - crossed ≤ 1 <;> simp [he, hlast]
      · simp [he]

/-- A size that is limited to some units is what these entries cost. -/
theorem sizeWithin_some (hon : log.disabled = false) (hcount : 1 ≤ count) :
    log.sizeWithin (some count) = .ok (some (Entry.totalCost (measured count log.entries))) := by
  obtain ⟨n, rfl⟩ := Nat.exists_eq_add_of_le' hcount
  unfold sizeWithin
  rw [if_neg (by simp [hon])]
  show Except.ok (some (sizeWithin.measure log (some (n + 1)))) = _
  unfold sizeWithin.measure measured
  cases log.entries with
  | nil => rfl
  | cons newest older =>
      dsimp only
      rw [costWithin_some, Entry.totalCost_cons]
      rfl

theorem upToBoundary_newest (count : Nat) (entries : List Entry) :
    upToBoundary count entries <+: entries := by
  induction entries generalizing count with
  | nil => exact List.nil_prefix
  | cons e older ih =>
      unfold upToBoundary
      split
      · split
        · exact ⟨older, rfl⟩
        · exact List.prefix_cons_inj e |>.mpr (ih _)
      · exact List.prefix_cons_inj e |>.mpr (ih _)

theorem measured_newest (count : Nat) (entries : List Entry) :
    measured count entries <+: entries := by
  cases entries with
  | nil => exact List.nil_prefix
  | cons e older => exact List.prefix_cons_inj e |>.mpr (upToBoundary_newest count older)

theorem upToBoundary_mono (h : count ≤ count') (entries : List Entry) :
    upToBoundary count entries <+: upToBoundary count' entries := by
  induction entries generalizing count count' with
  | nil => exact List.nil_prefix
  | cons e older ih =>
      unfold upToBoundary
      by_cases he : e.isBoundary = true
      · rw [if_pos he, if_pos he]
        by_cases hlast : count ≤ 1
        · rw [if_pos hlast]
          split
          · exact List.prefix_refl _
          · exact ⟨_, rfl⟩
        · rw [if_neg hlast, if_neg (by omega)]
          exact List.prefix_cons_inj e |>.mpr (ih (Nat.sub_le_sub_right h 1))
      · rw [if_neg he, if_neg he]
        exact List.prefix_cons_inj e |>.mpr (ih h)

/-- For more units nothing less is measured. -/
theorem measured_mono (h : count ≤ count') (entries : List Entry) :
    measured count entries <+: measured count' entries := by
  cases entries with
  | nil => exact List.nil_prefix
  | cons e older => exact List.prefix_cons_inj e |>.mpr (upToBoundary_mono h older)

/-! ### Counting what is measured -/

/-- An entry that is no boundary is in some unit. -/
theorem groups_ne_nil (h : current ≠ []) (entries : List Entry) : groups current entries ≠ [] := by
  induction entries generalizing current with
  | nil => simp [groups, h]
  | cons e older ih =>
      unfold groups
      split
      · simp [h]
      · exact ih (List.cons_ne_nil _ _)

/-- A boundary closes the current unit. -/
theorem groups_close (hcurrent : current ≠ []) (rest : List Entry) :
    groups current (.boundary :: rest) = current.reverse :: groups [] rest := by
  cases current with
  | nil => exact absurd rfl hcurrent
  | cons e current => rfl

/--
The newest entries are all of them, and there are no more units than are asked for; or they
end in a boundary, and their units are the newest ones, as many as are asked for.  The
current unit holds the entries above.
-/
def EndsAfter (count : Nat) (current entries newest : List Entry) : Prop :=
  ((groups current entries).length ≤ count ∧ newest = entries) ∨
    (count < (groups current entries).length ∧ newest.getLast? = some .boundary ∧
      groups current newest = (groups current entries).take count)

namespace EndsAfter

theorem getLast?_cons (e : Entry) (h : newest.getLast? = some .boundary) :
    (e :: newest).getLast? = some .boundary := by
  rw [List.getLast?_cons, h]
  rfl

/-- One entry more of the current unit. -/
theorem cons (he : ¬e.isBoundary = true) (h : EndsAfter count (e :: current) older newest) :
    EndsAfter count current (e :: older) (e :: newest) := by
  unfold EndsAfter
  rw [groups, if_neg he, groups, if_neg he]
  exact h.imp (And.imp_right (congrArg _)) (And.imp_right (And.imp_left (getLast?_cons e)))

/-- The boundary that closes the current unit. -/
theorem close (hcurrent : current ≠ []) (h : EndsAfter count [] older newest) :
    EndsAfter (count + 1) current (.boundary :: older) (.boundary :: newest) := by
  unfold EndsAfter
  rw [groups_close hcurrent, groups_close hcurrent, List.length_cons, List.take_succ_cons]
  rcases h with ⟨hle, hall⟩ | ⟨hlt, hend, htake⟩
  · exact Or.inl ⟨Nat.succ_le_succ hle, congrArg _ hall⟩
  · exact Or.inr ⟨Nat.succ_lt_succ hlt, getLast?_cons _ hend, congrArg _ htake⟩

/-- The boundary that closes the only unit that is asked for. -/
theorem close_last (hcurrent : current ≠ []) (hnext : older.head? ≠ some .boundary) :
    EndsAfter 1 current (.boundary :: older) [.boundary] := by
  cases older with
  | nil => exact (show EndsAfter 0 [] [] [] from Or.inl ⟨Nat.le_refl _, rfl⟩).close hcurrent
  | cons e older =>
      have he : ¬e.isBoundary = true := fun he =>
        hnext (congrArg some (Entry.isBoundary_iff.mp he))
      have hfilled : groups [] (e :: older) ≠ [] := by
        rw [groups, if_neg he]
        exact groups_ne_nil (List.cons_ne_nil e []) older
      unfold EndsAfter
      rw [groups_close hcurrent, groups_close hcurrent]
      exact Or.inr ⟨Nat.succ_lt_succ (List.length_pos_iff.mpr hfilled), rfl, rfl⟩

/-- A boundary on top of everything closes nothing. -/
theorem on_top (h : EndsAfter count [] older newest) :
    EndsAfter count [] (.boundary :: older) (.boundary :: newest) :=
  h.imp (And.imp_right (congrArg _)) (And.imp_right (And.imp_left (getLast?_cons _)))

end EndsAfter

/--
What is measured ends after the units that are asked for, if the current unit holds an entry
or its first is still to come.
-/
theorem endsAfter_upToBoundary (hapart : Apart older)
    (hopen : current ≠ [] ∨ older.head? ≠ some .boundary) (hcount : 1 ≤ count) :
    EndsAfter count current older (upToBoundary count older) := by
  induction older generalizing current count with
  | nil =>
      refine Or.inl ⟨?_, rfl⟩
      rw [groups]
      split
      · exact Nat.zero_le _
      · exact hcount
  | cons e older ih =>
      unfold upToBoundary
      by_cases he : e.isBoundary = true
      · obtain rfl := Entry.isBoundary_iff.mp he
        have hcurrent : current ≠ [] := hopen.resolve_right fun h => h rfl
        rw [if_pos he]
        by_cases hlast : count ≤ 1
        · obtain rfl : count = 1 := Nat.le_antisymm hlast hcount
          exact EndsAfter.close_last hcurrent hapart.head?_ne
        · rw [if_neg hlast]
          obtain ⟨n, rfl⟩ := Nat.exists_eq_add_of_le' hcount
          have hothers : 1 ≤ n := by omega
          exact (ih hapart.tail (Or.inr hapart.head?_ne) hothers).close hcurrent
      · rw [if_neg he]
        exact (ih hapart.tail (Or.inl (List.cons_ne_nil e current)) hcount).cons he

/-- So it does in a whole log. -/
theorem endsAfter_measured (hapart : Apart entries) (hcount : 1 ≤ count) :
    EndsAfter count [] entries (measured count entries) := by
  cases entries with
  | nil => exact Or.inl ⟨Nat.zero_le _, rfl⟩
  | cons e older =>
      by_cases he : e.isBoundary = true
      · obtain rfl := Entry.isBoundary_iff.mp he
        exact (endsAfter_upToBoundary hapart.tail (Or.inr hapart.head?_ne) hcount).on_top
      · exact (endsAfter_upToBoundary hapart.tail (Or.inl (List.cons_ne_nil e [])) hcount).cons he

/-- The entries `newest` are those that a size limited to `count` units is of. -/
structure SizeOf (log : Log) (count : Nat) (newest : List Entry) : Prop where
  /-- The size is what they cost. -/
  size : log.sizeWithin (some count) = .ok (some (Entry.totalCost newest))
  /-- They are the newest entries of the log. -/
  initial : newest <+: log.entries
  /-- They cost no more than the log. -/
  le : Entry.totalCost newest ≤ Entry.totalCost log.entries
  /-- They cost as much exactly if the log has no more units than are asked for. -/
  eq_iff : Entry.totalCost newest = Entry.totalCost log.entries ↔
    log.unitCount ≤ count ∨ log.entries = []
  /-- If it has more, the last of them is a boundary. -/
  closed : count < log.unitCount → newest.getLast? = some .boundary
  /-- Then their units are the newest units of the log, as many as are asked for. -/
  units : count < log.unitCount → groups [] newest = log.units.take count

theorem sizeOf_measured (hon : log.disabled = false) (hapart : Apart log.entries)
    (hcount : 1 ≤ count) : log.SizeOf count (measured count log.entries) := by
  have hinitial := measured_newest count log.entries
  have hunits : (groups [] log.entries).length = log.unitCount := log.length_units
  have hends := endsAfter_measured hapart hcount
  unfold EndsAfter at hends
  rw [hunits] at hends
  have hmore (hlt : count < log.unitCount) :=
    (hends.resolve_left fun h => absurd h.1 (Nat.not_le.mpr hlt)).2
  refine ⟨sizeWithin_some hon hcount, hinitial, totalCost_le_of_newest hinitial, ⟨?_, ?_⟩,
    fun hlt => (hmore hlt).1, fun hlt => (hmore hlt).2⟩
  · intro hcost
    refine Or.inl (Nat.not_lt.mp fun hlt => ?_)
    -- All units would be the newest `count` of them.
    have hlength := congrArg List.length (hmore hlt).2
    rw [eq_of_totalCost_eq hinitial hcost, List.length_take, hunits] at hlength
    omega
  · rintro (hle | hnil)
    · rw [(hends.resolve_right fun h => absurd h.1 (Nat.not_lt.mpr hle)).2]
    · rw [hnil]
      rfl

/-! ### Without a limit -/

theorem costWithin_none (crossed : Nat) (entries : List Entry) :
    costWithin none crossed entries = Entry.totalCost entries := by
  induction entries generalizing crossed with
  | nil => rfl
  | cons e older ih =>
      unfold costWithin
      split <;> simp [ih]

/-- Without a limit all entries are measured. -/
theorem sizeWithin_none (hon : log.disabled = false) :
    log.sizeWithin none = .ok (some (Entry.totalCost log.entries)) := by
  unfold sizeWithin
  rw [if_neg (by simp [hon])]
  show Except.ok (some (sizeWithin.measure log none)) = _
  unfold sizeWithin.measure
  cases log.entries with
  | nil => rfl
  | cons newest older =>
      dsimp only
      rw [costWithin_none, Entry.totalCost_cons]

/-- The limit zero is no limit. -/
theorem sizeWithin_zero (log : Log) : log.sizeWithin (some 0) = log.sizeWithin none := rfl

end Log

/--
**The size of some units is that of the newest entries that hold them.**  In a log whose
boundaries are no neighbours, as in every log that can be reached, the size is what all
entries cost, without a limit or with the limit zero.  With another it is what the newest
entries cost, as much as all exactly if the log has no more units than that; otherwise they
end in a boundary and hold the newest units, as many as the limit says.  For a larger limit
they are more, or the same.
-/
theorem sizes_are_of_newest_units :
    (∀ log : Log, log.disabled = false → Log.Apart log.entries →
      log.sizeWithin none = .ok (some (Entry.totalCost log.entries)) ∧
      log.sizeWithin (some 0) = .ok (some (Entry.totalCost log.entries)) ∧
      ∃ newest : Nat → List Entry, (∀ count, 1 ≤ count → log.SizeOf count (newest count)) ∧
        ∀ count count', 1 ≤ count → count ≤ count' →
          newest count <+: newest count' ∧
          Entry.totalCost (newest count) ≤ Entry.totalCost (newest count')) ∧
      ∀ l : Ledger, l.Reached → ∀ id, Log.Apart (l.logs id).entries := by
  refine ⟨fun log hon hapart => ?_, fun l h id => (h.ordered id).grammatical.apart⟩
  have hwhole := Log.sizeWithin_none hon
  refine ⟨hwhole, (Log.sizeWithin_zero log).trans hwhole, (Log.measured · log.entries),
    fun count hcount => Log.sizeOf_measured hon hapart hcount, fun count count' _ hle => ?_⟩
  have hmore := Log.measured_mono hle log.entries
  exact ⟨hmore, Log.totalCost_le_of_newest hmore⟩

/-- Two of three units, below a boundary that closes the newest one. -/
theorem sizes_are_of_newest_units_three :
    let log : Log :=
      { entries := [.boundary, .insertion 2 3, .pointMove 1, .boundary, .deletion ['a', 'b'] 0,
          .boundary, .insertion 0 2] }
    log.disabled = false ∧ Log.Apart log.entries ∧ log.sizeWithin none = .ok (some 193) ∧
      ∃ newest, log.SizeOf 2 newest ∧ log.sizeWithin (some 2) = .ok (some 161) ∧
        newest.getLast? = some .boundary ∧
        Log.groups [] newest = [[.insertion 2 3, .pointMove 1], [.deletion ['a', 'b'] 0]] := by
  intro log
  have hapart : Log.Apart log.entries := by decide
  obtain ⟨hwhole, -, newest, hsizes, -⟩ := sizes_are_of_newest_units.1 log rfl hapart
  have hsize := hsizes 2 (by decide)
  exact ⟨rfl, hapart, hwhole, newest 2, hsize, rfl, hsize.closed (by decide),
    hsize.units (by decide)⟩

end EditHistory
