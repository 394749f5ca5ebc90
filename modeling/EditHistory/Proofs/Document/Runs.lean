/-
What putting a property changes, and that its record takes it back.

A run is as long as it can be: in the range, neither the position in front of it nor the
one behind it has its value.  The runs are found from one position to the next, and what is
kept on the way is that those found so far are all the longest ones up to here: so the next
position can only lengthen the latest of them, or begin one.

Each run is recorded with its old value.  The values that come back when the records are put
again, latest first, are not told by the spans, of which there are more then, but position by
position: one that a run holds has the run's value, and of the others the put left the value
as it was.
-/
import EditHistory.Proofs.Document.Deeds
import EditHistory.Proofs.Document.Properties

namespace EditHistory

variable {doc : Document} {s t : Editing Document} {start stop pos : Nat} {name : String}
  {value : Json} {run run' : Run} {runs earlier : List Run}

namespace Document

/--
The run is one of positions in the range at which the old value is one and the same and
not the new one, and is no part of a longer one.
-/
structure LongestRun (doc : Document) (start stop : Nat) (name : String) (value : Json)
    (run : Run) : Prop where
  within : RunWithin start stop run
  /-- It carries the old value. -/
  old : run.old = doc.propertyAt run.start name
  /-- That is the old value at all its positions. -/
  uniform : ∀ pos, run.Holds pos → (doc.propertyAt pos name).Same run.old
  /-- And it is another than the new one. -/
  differs : ¬run.old.Same value
  /-- The position in front of it is out of the range or has another value. -/
  first : start < run.start → ¬(doc.propertyAt (run.start - 1) name).Same run.old
  /-- So is the position behind it. -/
  last : run.stop < stop → ¬(doc.propertyAt run.stop name).Same run.old

namespace LongestRun

theorem holds_start (h : doc.LongestRun start stop name value run) : run.Holds run.start :=
  ⟨Nat.le_refl _, h.within.2.1⟩

/-! Two longest runs with a position in common are one. -/

section Common

variable (h : doc.LongestRun start stop name value run)
  (h' : doc.LongestRun start stop name value run') (hpos : run.Holds pos) (hpos' : run'.Holds pos)

include h h' hpos hpos'

theorem same : run.old.Same run'.old :=
  (h.uniform pos hpos).symm.trans (h'.uniform pos hpos')

/-- The second does not begin behind the first, which would hold the position in front of it. -/
theorem start_le : run'.start ≤ run.start := by
  refine Nat.not_lt.mp fun hlt => ?_
  have hfront : run.Holds (run'.start - 1) :=
    ⟨Nat.le_sub_one_of_lt hlt, by unfold Run.Holds at hpos hpos'; omega⟩
  exact h'.first (Nat.lt_of_le_of_lt h.within.1 hlt)
    ((h.uniform _ hfront).trans (h.same h' hpos hpos'))

/-- The first does not end in front of the end of the second, which would hold its own end. -/
theorem stop_le : run'.stop ≤ run.stop := by
  refine Nat.not_lt.mp fun hlt => ?_
  have hbehind : run'.Holds run.stop := ⟨by unfold Run.Holds at hpos hpos'; omega, hlt⟩
  exact h.last (Nat.lt_of_lt_of_le hlt h'.within.2.2)
    ((h'.uniform _ hbehind).trans (h.same h' hpos hpos').symm)

theorem eq : run = run' := by
  have hstart := Nat.le_antisymm (h'.start_le h hpos' hpos) (h.start_le h' hpos hpos')
  have hstop := Nat.le_antisymm (h'.stop_le h hpos' hpos) (h.stop_le h' hpos hpos')
  have hold : run.old = run'.old := by rw [h.old, h'.old, hstart]
  cases run
  cases run'
  dsimp only at hstart hstop hold
  rw [hstart, hstop, hold]

end Common

/-- One more position at which the value is another leaves a longest run one. -/
theorem next (h : doc.LongestRun start pos name value run)
    (hnext : run.stop = pos → ¬(doc.propertyAt pos name).Same run.old) :
    doc.LongestRun start (pos + 1) name value run := by
  obtain ⟨hstart, hlt, hle⟩ := h.within
  refine ⟨⟨hstart, hlt, by omega⟩, h.old, h.uniform, h.differs, h.first, fun hstop => ?_⟩
  by_cases hend : run.stop = pos
  · rw [hend]
    exact hnext hend
  · exact h.last (by omega)

/-- With the same value there it is longer. -/
theorem longer (h : doc.LongestRun start pos name value run) (hstop : run.stop = pos)
    (hsame : run.old.Same (doc.propertyAt pos name)) :
    doc.LongestRun start (pos + 1) name value { run with stop := pos + 1 } := by
  obtain ⟨hstart, hlt, -⟩ := h.within
  refine ⟨⟨hstart, by dsimp only; omega, Nat.le_refl _⟩, h.old, ?_, h.differs, h.first,
    fun hlt => absurd hlt (Nat.lt_irrefl _)⟩
  rintro p ⟨hle, hp⟩
  dsimp only at hle hp
  by_cases hlast : p = pos
  · rw [hlast]
    exact hsame.symm
  · exact h.uniform p ⟨hle, by omega⟩

end LongestRun

/-- A position that keeps an old value is held by a run. -/
theorem RunsTell.held (h : doc.RunsTell name value start stop runs) (hstart : start ≤ pos)
    (hstop : pos < stop) (hdiffers : ¬(doc.propertyAt pos name).Same value) :
    ∃ run ∈ runs, run.Holds pos :=
  Classical.byContradiction fun hno =>
    hdiffers (h.rest pos hstart hstop fun run hrun hholds => hno ⟨run, hrun, hholds⟩)

/-- The runs up to `pos`, latest first, are all the longest runs there. -/
structure Gathered (doc : Document) (name : String) (value : Json) (start pos : Nat)
    (runs : List Run) : Prop where
  tells : doc.RunsTell name value start pos runs
  apart : runs.Pairwise fun later earlier => earlier.stop ≤ later.start
  longest : ∀ run ∈ runs, doc.LongestRun start pos name value run

namespace Gathered

/-- Of runs that are apart only the latest reaches the end. -/
theorem stop_lt (h : doc.Gathered name value start pos (run :: earlier)) (hrun' : run' ∈ earlier) :
    run'.stop < pos := by
  have hle := (List.pairwise_cons.mp h.apart).1 run' hrun'
  obtain ⟨-, hlt, hstop⟩ := h.tells.within run List.mem_cons_self
  omega

/-- A position that has the new value already is left out. -/
theorem skip (h : doc.Gathered name value start pos runs)
    (htells : doc.RunsTell name value start (pos + 1) runs)
    (hsame : (doc.propertyAt pos name).Same value) :
    doc.Gathered name value start (pos + 1) runs where
  tells := htells
  apart := h.apart
  longest := fun run hrun => (h.longest run hrun).next fun _ hold =>
    (h.longest run hrun).differs (hold.symm.trans hsame)

/-- A position with the value of the latest run, which reaches it, belongs to that. -/
theorem lengthen (h : doc.Gathered name value start pos (run :: earlier))
    (htells : doc.RunsTell name value start (pos + 1) ({ run with stop := pos + 1 } :: earlier))
    (hstop : run.stop = pos) (hsame : run.old.Same (doc.propertyAt pos name)) :
    doc.Gathered name value start (pos + 1) ({ run with stop := pos + 1 } :: earlier) where
  tells := htells
  apart := List.pairwise_cons.mpr (List.pairwise_cons.mp h.apart)
  longest := by
    intro r hr
    rcases List.mem_cons.mp hr with rfl | hr
    · exact (h.longest run List.mem_cons_self).longer hstop hsame
    · have hlt := h.stop_lt hr
      exact (h.longest r (List.mem_cons_of_mem _ hr)).next fun hend => absurd hend (by omega)

/-- If no run reaches a position with its value, it begins one. -/
theorem begin (h : doc.Gathered name value start pos runs) (hpos : start ≤ pos)
    (htells : doc.RunsTell name value start (pos + 1)
      ({ start := pos, stop := pos + 1, old := doc.propertyAt pos name } :: runs))
    (hdiffers : ¬(doc.propertyAt pos name).Same value)
    (hnone : ∀ run ∈ runs, run.stop = pos → ¬run.old.Same (doc.propertyAt pos name)) :
    doc.Gathered name value start (pos + 1)
      ({ start := pos, stop := pos + 1, old := doc.propertyAt pos name } :: runs) where
  tells := htells
  apart := List.pairwise_cons.mpr ⟨fun run hrun => (h.tells.within run hrun).2.2, h.apart⟩
  longest := by
    intro run hrun
    rcases List.mem_cons.mp hrun with rfl | hrun
    · refine ⟨htells.within _ List.mem_cons_self, rfl, ?_, hdiffers, ?_,
        fun hlt => absurd hlt (Nat.lt_irrefl _)⟩
      · rintro p ⟨hle, hp⟩
        dsimp only at hle hp
        obtain rfl : p = pos := by omega
        exact Json.Same.refl _
      · -- If the position in front had the value, its run would reach this one.
        intro hlt hfront
        dsimp only at hlt hfront
        have hchanges : ¬(doc.propertyAt (pos - 1) name).Same value := fun hsame =>
          hdiffers (hfront.symm.trans hsame)
        obtain ⟨run, hrun, hholds⟩ := h.tells.held (by omega) (by omega) hchanges
        have hle := (h.tells.within run hrun).2.2
        have hlt' := hholds.2
        exact hnone run hrun (by omega) ((h.tells.old run hrun _ hholds).trans hfront)
    · exact (h.longest run hrun).next fun hend hsame => hnone run hrun hend hsame.symm

theorem addPosition (h : doc.Gathered name value start pos runs) (hpos : start ≤ pos) :
    doc.Gathered name value start (pos + 1)
      (Run.addPosition value runs pos (doc.propertyAt pos name)) := by
  have htells := h.tells.addPosition hpos
  unfold Run.addPosition at htells ⊢
  by_cases hsame : (doc.propertyAt pos name).Same value
  · rw [if_pos hsame] at htells ⊢
    exact h.skip htells hsame
  · rw [if_neg hsame] at htells ⊢
    cases runs with
    | nil => exact h.begin hpos htells hsame nofun
    | cons run earlier =>
        dsimp only at htells ⊢
        by_cases hreaches : run.stop = pos ∧ run.old.Same (doc.propertyAt pos name)
        · rw [if_pos hreaches] at htells ⊢
          exact h.lengthen htells hreaches.1 hreaches.2
        · rw [if_neg hreaches] at htells ⊢
          refine h.begin hpos htells hsame fun r hr hend hold => ?_
          rcases List.mem_cons.mp hr with rfl | hr
          · exact hreaches ⟨hend, hold⟩
          · exact absurd hend (Nat.ne_of_lt (h.stop_lt hr))

end Gathered

theorem gathered_changedRuns (doc : Document) (hspan : start ≤ stop) (name : String)
    (value : Json) :
    doc.Gathered name value start stop (doc.changedRuns start stop name value).reverse :=
  changedRuns_induction hspan
    ⟨⟨by simp, by simp, fun p hstart hp _ => by omega⟩, List.Pairwise.nil, by simp⟩
    fun _ _ hpos h => h.addPosition hpos

/-- The runs that a new value changes are the longest ones. -/
theorem mem_changedRuns (hspan : start ≤ stop) :
    run ∈ doc.changedRuns start stop name value ↔ doc.LongestRun start stop name value run := by
  have h := gathered_changedRuns doc hspan name value
  constructor
  · exact fun hrun => h.longest run (List.mem_reverse.mpr hrun)
  · intro hrun
    obtain ⟨hstart, hlt, hle⟩ := hrun.within
    -- The first position of the run is in a run that is found, so the two are one.
    obtain ⟨run', hrun', hholds⟩ :=
      h.tells.held hstart (Nat.lt_of_lt_of_le hlt hle) (hrun.old ▸ hrun.differs)
    rw [hrun.eq (h.longest run' hrun') hrun.holds_start hholds]
    exact List.mem_reverse.mp hrun'

/-- They come in increasing order. -/
theorem pairwise_changedRuns (hspan : start ≤ stop) :
    (doc.changedRuns start stop name value).Pairwise fun run later => run.stop ≤ later.start :=
  List.pairwise_reverse.mp (gathered_changedRuns doc hspan name value).apart

end Document

/-! ### Putting -/

/-- What the run is to be recorded as. -/
def Run.change (id : DocId) (name : String) (run : Run) : PropertyChange :=
  { doc := id, name, old := run.old, start := run.start, stop := run.stop }

namespace Editing

/-- Outside the range nothing happens, and to other properties. -/
theorem propertyAt_afterProperty_outside {other : String}
    (hout : ¬(other = name ∧ start ≤ pos ∧ pos < stop)) :
    (s.afterProperty start stop name value).doc.propertyAt pos other
      = s.doc.propertyAt pos other := by
  unfold afterProperty
  split
  · exact propertyAt_withSpan.trans
      (if_neg fun hcovers => hout ⟨hcovers.1.symm, hcovers.2⟩)
  · rfl

/-- In the range the property has the value afterwards. -/
theorem propertyAt_afterProperty_inside (hspan : start ≤ stop)
    (hstop : stop ≤ s.doc.text.length) (hle : start ≤ pos) (hlt : pos < stop) :
    ((s.afterProperty start stop name value).doc.propertyAt pos name).Same value := by
  unfold afterProperty
  by_cases hruns : s.doc.changedRuns start stop name value = []
  · rw [if_neg fun h => h.2.2 hruns]
    have htells := Document.runsTell_changedRuns s.doc hspan name value
    rw [hruns] at htells
    exact htells.rest pos hle hlt nofun
  · rw [if_pos ⟨hspan, hstop, hruns⟩]
    exact .of_eq (propertyAt_withSpan.trans (if_pos ⟨rfl, hle, hlt⟩))

/-- Nothing happens if no value is another. -/
theorem afterProperty_of_same (hspan : start ≤ stop)
    (hsame : ∀ pos, start ≤ pos → pos < stop → (s.doc.propertyAt pos name).Same value) :
    s.afterProperty start stop name value = s := by
  refine if_neg fun h => ?_
  obtain ⟨run, hrun⟩ := List.exists_mem_of_ne_nil _ h.2.2
  have hlongest := (Document.mem_changedRuns hspan).mp hrun
  obtain ⟨hstart, hlt, hle⟩ := hlongest.within
  refine hlongest.differs ?_
  rw [hlongest.old]
  exact hsame run.start hstart (Nat.lt_of_lt_of_le hlt hle)

/-- What putting a property needs besides a tick that is left, and leaves for the next one. -/
structure Puts (s : Editing Document) : Prop where
  enabled : s.doc.log.disabled = false
  short : s.doc.text.Short
  inRange : Document.InRange s

theorem text_afterProperty (start stop : Nat) (name : String) (value : Json)
    (s : Editing Document) : (s.afterProperty start stop name value).doc.text = s.doc.text := by
  unfold afterProperty
  split <;> rfl

theorem modified_afterProperty_le (start stop : Nat) (name : String) (value : Json)
    (s : Editing Document) :
    (s.afterProperty start stop name value).doc.ticks.modified ≤ s.doc.ticks.modified + 1 := by
  unfold afterProperty
  split
  · exact Nat.le_refl _
  · exact Nat.le_succ _

namespace Puts

theorem inRange_putting (h : s.Puts) (hspan : start ≤ stop) (hstop : stop ≤ s.doc.text.length)
    (htick : Offset.Fits (s.doc.ticks.modified + 1)) (runs : List Run) :
    Document.InRange (s.putting { start, stop, name, value } runs) := by
  have hshort := h.short
  unfold Text.Short at hshort
  obtain ⟨hpoint, -, hmarkers, hspans⟩ := h.inRange
  refine ⟨hpoint, htick, hmarkers, fun span hspan' => ?_⟩
  rcases List.mem_cons.mp hspan' with rfl | hold
  · unfold Offset.Fits
    dsimp only
    omega
  · exact hspans span hold

/-- Then a property is put. -/
theorem run_eq (h : s.Puts) (hspan : start ≤ stop) (hstop : stop ≤ s.doc.text.length)
    (htick : Offset.Fits (s.doc.ticks.modified + 1)) :
    Document.putProperty start stop name value s
      = .ok () (s.afterProperty start stop name value) := by
  have hin : ¬(stop < start ∨ s.doc.text.length < stop) := by omega
  unfold afterProperty
  by_cases hruns : s.doc.changedRuns start stop name value = []
  · rw [if_neg fun h => h.2.2 hruns]
    exact Document.putProperty_same hin hruns
  · rw [if_pos ⟨hspan, hstop, hruns⟩]
    exact Document.putProperty_ok h.enabled hin h.short hruns
      (h.inRange_putting hspan hstop htick _)

/-- And others can be put afterwards. -/
theorem after (h : s.Puts) (hspan : start ≤ stop) (hstop : stop ≤ s.doc.text.length)
    (htick : Offset.Fits (s.doc.ticks.modified + 1)) :
    (s.afterProperty start stop name value).Puts := by
  unfold afterProperty
  split
  · rename_i hin
    exact ⟨(keeps_putting _ hin.2.2 s).disabled.trans h.enabled, h.short,
      h.inRange_putting hspan hstop htick _⟩
  · exact h

/--
Runs that are put again, one after the other, give the positions that they hold the value of
one of them, and leave the others alone.
-/
theorem putAgain (h : s.Puts) {back : List Run}
    (hwithin : ∀ run ∈ back, run.start ≤ run.stop ∧ run.stop ≤ s.doc.text.length)
    (htick : Offset.Fits (s.doc.ticks.modified + back.length)) (name : String) :
    ∃ t, Call.runAll (back.map fun run => .putProperty run.start run.stop name run.old) s
        = .ok () t ∧
      ∀ pos other,
        (∃ run ∈ back, other = name ∧ run.Holds pos ∧
          (t.doc.propertyAt pos other).Same run.old) ∨
        ((∀ run ∈ back, ¬(other = name ∧ run.Holds pos)) ∧
          t.doc.propertyAt pos other = s.doc.propertyAt pos other) := by
  induction back generalizing s with
  | nil => exact ⟨s, rfl, fun pos other => Or.inr ⟨nofun, rfl⟩⟩
  | cons run back ih =>
      obtain ⟨hspan, hstop⟩ := hwithin run List.mem_cons_self
      have hnext : Offset.Fits (s.doc.ticks.modified + 1) := by
        unfold Offset.Fits at htick ⊢
        rw [List.length_cons] at htick
        omega
      have htext := text_afterProperty run.start run.stop name run.old s
      have hmodified := modified_afterProperty_le run.start run.stop name run.old s
      obtain ⟨t, ht, hvalues⟩ := ih (s := s.afterProperty run.start run.stop name run.old)
        (h.after hspan hstop hnext)
        (fun r hr => htext ▸ hwithin r (List.mem_cons_of_mem _ hr)) (by
          unfold Offset.Fits at htick ⊢
          rw [List.length_cons] at htick
          omega)
      refine ⟨t, ?_, fun pos other => ?_⟩
      · rw [List.map_cons, ← List.singleton_append, Call.runAll_append, Call.runAll_singleton]
        exact (EditM.bind_ok (h.run_eq hspan hstop hnext)).trans ht
      · rcases hvalues pos other with ⟨r, hr, hheld⟩ | ⟨hno, hsame⟩
        · exact Or.inl ⟨r, List.mem_cons_of_mem _ hr, hheld⟩
        · by_cases hin : other = name ∧ run.Holds pos
          · obtain ⟨rfl, hle, hlt⟩ := hin
            refine Or.inl ⟨run, List.mem_cons_self, rfl, ⟨hle, hlt⟩, ?_⟩
            rw [hsame]
            exact propertyAt_afterProperty_inside hspan hstop hle hlt
          · exact Or.inr ⟨List.forall_mem_cons.mpr ⟨hin, hno⟩,
              hsame.trans (propertyAt_afterProperty_outside hin)⟩

end Puts

/-- What putting a property over a range does, and how its record takes it back. -/
structure PutOver (s : Editing Document) (start stop : Nat) (name : String) (value : Json)
    (runs : List Run) (t : Editing Document) : Prop where
  /-- In the range the property has the value. -/
  inside : ∀ pos, start ≤ pos → pos < stop → (t.doc.propertyAt pos name).Same value
  /-- Elsewhere it has the value that it had, and all others have theirs. -/
  outside : ∀ pos other, ¬(other = name ∧ start ≤ pos ∧ pos < stop) →
    t.doc.propertyAt pos other = s.doc.propertyAt pos other
  /-- The runs are the longest ones, and all of them. -/
  longest : ∀ run, run ∈ runs ↔ s.doc.LongestRun start stop name value run
  increasing : runs.Pairwise fun run later => run.stop ≤ later.start
  /-- They are recorded in this order with their old values, perhaps after a first change. -/
  recorded : ∃ first, (first = [] ∨ first = [.firstChange s.doc.modtime]) ∧
    t.doc.log.entries = (runs.map fun run => .propertyChange (run.change s.doc.id name)).reverse
      ++ first ++ s.doc.log.entries
  /-- Put again, latest first, they give back all values. -/
  back : ∃ u, Call.runAll (runs.reverse.map fun run =>
      .putProperty run.start run.stop name run.old) t = .ok () u ∧
    ∀ pos other, (u.doc.propertyAt pos other).Same (s.doc.propertyAt pos other)
  /-- If no value is another, nothing happens at all. -/
  idle : (∀ pos, start ≤ pos → pos < stop → (s.doc.propertyAt pos name).Same value) → t = s

theorem recorded_afterProperty (hspan : start ≤ stop) (hstop : stop ≤ s.doc.text.length)
    (name : String) (value : Json) :
    ∃ first, (first = [] ∨ first = [.firstChange s.doc.modtime]) ∧
      (s.afterProperty start stop name value).doc.log.entries
        = ((s.doc.changedRuns start stop name value).map fun run =>
            .propertyChange (run.change s.doc.id name)).reverse ++ first ++ s.doc.log.entries := by
  unfold afterProperty
  by_cases hruns : s.doc.changedRuns start stop name value = []
  · rw [if_neg fun h => h.2.2 hruns, hruns]
    exact ⟨[], Or.inl rfl, rfl⟩
  · rw [if_pos ⟨hspan, hstop, hruns⟩]
    refine ⟨Recording.firstChanges s.view s.recording, ?_, ?_⟩
    · unfold Recording.firstChanges
      split
      · exact Or.inr rfl
      · exact Or.inl rfl
    · have hentry : ∀ run ∈ s.doc.changedRuns start stop name value,
          Recording.runEntry s.view name run = .propertyChange (run.change s.doc.id name) := by
        intro run hrun
        obtain ⟨-, hlt, -⟩ := Document.runWithin_changedRuns s.doc hspan name value run hrun
        rw [Recording.runEntry, Nat.add_sub_cancel' (Nat.le_of_lt hlt)]
        rfl
      rw [← List.map_congr_left hentry]
      exact (Recording.adds_recordedRuns s.view name _ s.recording hruns).entries

/-- The runs of a range, put again after it, give back the values. -/
theorem Puts.back_afterProperty (h : s.Puts) (hspan : start ≤ stop)
    (hstop : stop ≤ s.doc.text.length)
    (hticks : Offset.Fits
      (s.doc.ticks.modified + 1 + (s.doc.changedRuns start stop name value).length)) :
    ∃ u, Call.runAll ((s.doc.changedRuns start stop name value).reverse.map fun run =>
          .putProperty run.start run.stop name run.old) (s.afterProperty start stop name value)
        = .ok () u ∧
      ∀ pos other, (u.doc.propertyAt pos other).Same (s.doc.propertyAt pos other) := by
  have htext := text_afterProperty start stop name value s
  have hmodified := modified_afterProperty_le start stop name value s
  have hruns := Document.runsTell_changedRuns s.doc hspan name value
  unfold Offset.Fits at hticks
  have hwithin : ∀ run ∈ (s.doc.changedRuns start stop name value).reverse,
      run.start ≤ run.stop ∧
        run.stop ≤ (s.afterProperty start stop name value).doc.text.length := by
    intro run hrun
    obtain ⟨-, hlt, hle⟩ := hruns.within run hrun
    exact ⟨Nat.le_of_lt hlt, htext ▸ Nat.le_trans hle hstop⟩
  obtain ⟨u, hu, hvalues⟩ := (h.after hspan hstop (by unfold Offset.Fits; omega)).putAgain hwithin
    (by unfold Offset.Fits; rw [List.length_reverse]; omega) name
  refine ⟨u, hu, fun pos other => ?_⟩
  rcases hvalues pos other with ⟨run, hrun, rfl, hholds, hsame⟩ | ⟨hno, hsame⟩
  · exact hsame.trans (hruns.old run hrun pos hholds)
  · rw [hsame]
    by_cases hin : other = name ∧ start ≤ pos ∧ pos < stop
    · -- No run holds the position, so it had the new value before.
      obtain ⟨rfl, hle, hlt⟩ := hin
      exact (propertyAt_afterProperty_inside hspan hstop hle hlt).trans
        (hruns.rest pos hle hlt fun run hrun hholds => hno run hrun ⟨rfl, hholds⟩).symm
    · exact .of_eq (propertyAt_afterProperty_outside hin)

end Editing

/--
**Putting a property is exact, and its record takes it back.**  A property that is put over a
range of the text has the value there, and nothing else changes its value.  What is recorded
are the longest runs of positions that had one value, and not this one, each with that value
and in increasing order; put again from the latest on, they give back the value of every
property at every position.  If there is no such run, nothing happens at all.  All that this
asks of the document, besides a log that is on, is that its places and ticks are words.
-/
theorem putProperty_exact (hon : s.doc.log.disabled = false) (hshort : s.doc.text.Short)
    (hrange : Document.InRange s) (hspan : start ≤ stop) (hstop : stop ≤ s.doc.text.length)
    (hticks : Offset.Fits
      (s.doc.ticks.modified + 1 + (s.doc.changedRuns start stop name value).length)) :
    ∃ t, Document.putProperty start stop name value s = .ok () t ∧
      s.PutOver start stop name value (s.doc.changedRuns start stop name value) t := by
  have h : s.Puts := ⟨hon, hshort, hrange⟩
  refine ⟨_, h.run_eq hspan hstop ?_, ?_⟩
  · unfold Offset.Fits at hticks ⊢
    omega
  exact
    { inside := fun pos => Editing.propertyAt_afterProperty_inside hspan hstop
      outside := fun pos other => Editing.propertyAt_afterProperty_outside
      longest := fun run => Document.mem_changedRuns hspan
      increasing := Document.pairwise_changedRuns hspan
      recorded := Editing.recorded_afterProperty hspan hstop name value
      back := h.back_afterProperty hspan hstop hticks
      idle := Editing.afterProperty_of_same hspan }

/-- A property put over two others, one on top of the other. -/
theorem putProperty_exact_overlapping :
    let doc : Document :=
      { id := ⟨0⟩, text := ['a', 'b', 'c', 'd', 'e']
        spans := [⟨3, 5, "face", .str "italic"⟩, ⟨1, 4, "face", .str "bold"⟩] }
    let s : Editing Document := { recorder := {}, markers := {}, doc }
    ∃ t, Document.putProperty 0 5 "face" (.str "italic") s = .ok () t ∧
      s.PutOver 0 5 "face" (.str "italic")
        [{ start := 0, stop := 1, old := .null },
          { start := 1, stop := 3, old := .str "bold" }] t := by
  intro doc s
  have hruns : s.doc.changedRuns 0 5 "face" (.str "italic")
      = [{ start := 0, stop := 1, old := .null },
          { start := 1, stop := 3, old := .str "bold" }] := by
    decide +kernel
  rw [← hruns]
  exact putProperty_exact rfl (by decide) (by decide) (by decide) (by decide) (by decide +kernel)

end EditHistory
