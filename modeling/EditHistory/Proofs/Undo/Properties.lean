/-
Undo restores the properties of what it does not put back.

The entry of a deletion holds the plain text, so the characters that an undo puts back
come without the properties that they had, and take the values of what they are put into.
Everywhere else an undo knows what it does: `Entry.recall` tells how what is known of the
values before an entry is taken back becomes what is known of them afterwards.  A character
brings its values from its `source?`, a character that is put back has none and nothing is
known of it, and an entry about a property sets what is known to the old value.

There is a chain of such knowledge down the log.  It starts from all that is known of the
document as it is, and what is left of that when a unit has been taken back is true of the
moment in which the unit began.
-/
import Mathlib.Data.List.Induction
import EditHistory.Proofs.Undo.Values

namespace EditHistory

open Editing

/-- What is known of the properties in a text: the value at some positions, nothing at others. -/
abbrev Known := Nat → String → Option Json

/-- What is known is true of the document. -/
def Known.Tells (known : Known) (doc : Document) : Prop :=
  ∀ pos name value, known pos name = some value → value.Same (doc.propertyAt pos name)

/-- Everything is known. -/
def Document.known (doc : Document) : Known := fun pos name => some (doc.propertyAt pos name)

/-- Where a character stood before an entry was taken back, unless the entry puts it back. -/
def Entry.source? : Entry → Nat → Option Nat
  | .insertion start stop, pos => some (if pos < start then pos else pos + (stop - start))
  | .deletion text offset, pos =>
    if pos < offset.natAbs then some pos
    else if pos < offset.natAbs + text.length then none
    else some (pos - text.length)
  | _, pos => some pos

/--
Where it stood before the entries were taken back, one after the other, unless one of them
puts it back.
-/
def Entry.sourceAmong? : List Entry → Nat → Option Nat
  | [], pos => some pos
  | e :: older, pos => (sourceAmong? older pos).bind e.source?

/-- What is known after an entry was taken back. -/
def Entry.recall (e : Entry) (known : Known) : Known := fun pos name =>
  match e with
  | .propertyChange change =>
    if name = change.name ∧ change.start ≤ pos ∧ pos < change.stop then some change.old
    else known pos name
  | _ => (e.source? pos).bind (known · name)

/-- What is known after an undo of the `count` newest units of the document. -/
def Document.recalled (count : Nat) (doc : Document) : Known :=
  (doc.log.units.take count).flatten.foldl (fun known e => e.recall known) doc.known

variable {id : DocId} {x y : Text} {e : Entry} {s s' first now : Editing Document}
  {doc doc' : Document} {past : List Event} {what : Happening} {c : Call} {known : Known}

namespace Entry

variable {pos : Nat} {name : String}

theorem recall_insertion {start stop : Nat} : (insertion start stop).recall known pos name
    = if pos < start then known pos name else known (pos + (stop - start)) name :=
  apply_ite (known · name) _ _ _

theorem recall_deletion {text : Text} {offset : Int} : (deletion text offset).recall known pos name
    = if pos < offset.natAbs then known pos name
      else if pos < offset.natAbs + text.length then none
      else known (pos - text.length) name := by
  unfold Entry.recall Entry.source?
  dsimp only
  split
  · rfl
  · split <;> rfl

theorem recall_propertyChange {change : PropertyChange} :
    (propertyChange change).recall known pos name
      = if name = change.name ∧ change.start ≤ pos ∧ pos < change.stop then some change.old
        else known pos name := rfl

theorem sourceAmong_append (newer older : List Entry) :
    sourceAmong? (newer ++ older) pos = (sourceAmong? older pos).bind (sourceAmong? newer) := by
  induction newer with
  | nil => exact (Option.bind_fun_some _).symm
  | cons e newer ih =>
      rw [List.cons_append, sourceAmong?, ih, Option.bind_assoc]
      rfl

end Entry

theorem Document.tells_known (doc : Document) : doc.known.Tells doc := by
  intro pos name value h
  rw [Option.some.inj h]
  exact Json.Same.refl _

/--
The character at `pos` is one of the text that the entry of a deletion puts back, when the
`older` entries have been taken back after it.
-/
def Entry.PutsBack (text : Text) (offset : Int) (older : List Entry) (pos : Nat) : Prop :=
  ∃ p, sourceAmong? older pos = some p ∧
    offset.natAbs ≤ p ∧ p < offset.natAbs + text.length

/--
Where nothing is known any more, one of the entries put the character back, and it has kept
the value that was around the gap then.
-/
theorem Document.exists_putBack {entries : List Entry} {pos : Nat} {name : String}
    (h : entries.foldl (fun known e => e.recall known) doc.known pos name = none) :
    ∃ newer text offset older, entries = newer ++ .deletion text offset :: older ∧
      Entry.PutsBack text offset older pos ∧
      doc.valuesAfter entries (pos + 1) pos name
        = doc.valuesAfter newer offset.natAbs offset.natAbs name := by
  induction entries using List.reverseRecOn generalizing pos with
  | nil => cases h
  | append_singleton entries e ih =>
      rw [List.foldl_append, List.foldl_cons, List.foldl_nil] at h
      rw [valuesAfter_concat]
      -- A character that this entry did not put back stood elsewhere before.
      have hearlier {p : Nat} (hsource : e.source? pos = some p)
          (hp : entries.foldl (fun known e => e.recall known) doc.known p name = none)
          (hvalue : e.reclaim (doc.valuesAfter entries) (pos + 1) pos name
            = doc.valuesAfter entries (p + 1) p name) :
          ∃ newer text offset older, entries ++ [e] = newer ++ .deletion text offset :: older ∧
            Entry.PutsBack text offset older pos ∧
            e.reclaim (doc.valuesAfter entries) (pos + 1) pos name
              = doc.valuesAfter newer offset.natAbs offset.natAbs name := by
        obtain ⟨newer, text, offset, older, rfl, ⟨q, hq, hwithin⟩, hgap⟩ := ih hp
        have hlast : Entry.sourceAmong? [e] pos = some p := hsource
        refine ⟨newer, text, offset, older ++ [e], by simp, ⟨q, ?_, hwithin⟩, hvalue.trans hgap⟩
        rw [Entry.sourceAmong_append, hlast]
        exact hq
      cases e with
      | insertion start stop =>
          rw [Entry.recall_insertion] at h
          split at h <;> rename_i hpos
          · exact hearlier (congrArg some (if_pos hpos)) h
              (Entry.reclaim_insertion.trans (if_pos hpos))
          · exact hearlier (congrArg some (if_neg hpos)) h
              (Entry.reclaim_insertion.trans (if_neg hpos))
      | deletion text offset =>
          rw [Entry.recall_deletion] at h
          split at h <;> rename_i hpos
          · exact hearlier (if_pos hpos) h (Entry.reclaim_deletion.trans (if_pos hpos))
          · split at h <;> rename_i hwithin
            · refine ⟨entries, text, offset, [], rfl, ⟨pos, rfl, Nat.not_lt.mp hpos, hwithin⟩, ?_⟩
              rw [Entry.reclaim_deletion, if_neg hpos, if_pos hwithin]
            · refine hearlier ((if_neg hpos).trans (if_neg hwithin)) h ?_
              rw [Entry.reclaim_deletion, if_neg hpos, if_neg hwithin]
      | propertyChange change =>
          rw [Entry.recall_propertyChange] at h
          split at h <;> rename_i hin
          · cases h
          · exact hearlier rfl h (Entry.reclaim_propertyChange_outside hin)
      | _ => exact hearlier rfl h rfl

/-- All is known of a character that none of the entries puts back. -/
theorem Document.isSome_recall_of_source {entries : List Entry} {pos : Nat}
    (h : (Entry.sourceAmong? entries pos).isSome) (name : String) :
    (entries.foldl (fun known e => e.recall known) doc.known pos name).isSome := by
  refine Option.isSome_iff_ne_none.mpr fun hnone => ?_
  obtain ⟨newer, text, offset, older, rfl, ⟨p, hp, hle, hlt⟩, -⟩ := exists_putBack hnone
  have hsource : (Entry.deletion text offset).source? p = none :=
    (if_neg (Nat.not_lt.mpr hle)).trans (if_pos hlt)
  rw [Entry.sourceAmong_append, Entry.sourceAmong?, hp, Option.bind_some, hsource] at h
  cases h

namespace Known.Tells

theorem congr (h : known.Tells doc) (hspans : doc'.spans = doc.spans) : known.Tells doc' := by
  intro pos name value hvalue
  rw [Document.propertyAt_congr hspans]
  exact h pos name value hvalue

/-- What is known before an entry is taken back tells what is known afterwards. -/
theorem undone (h : known.Tells s.doc) (hs : Ready id x s) (hr : e.Reverts id x y) :
    (e.recall known).Tells (e.undone s).doc := by
  intro pos name value hvalue
  have hkept {p : Nat} (hknown : known p name = some value) :
      value.Same (s.doc.valueAround (p + 1) p name) := by
    rw [← Document.propertyAt_eq_valueAround]
    exact h p name value hknown
  rw [Entry.propertyAt_undone hs hr]
  cases e with
  | insertion start stop =>
      rw [Entry.recall_insertion] at hvalue
      rw [Entry.reclaim_insertion]
      split at hvalue <;> rename_i hpos
      · rw [if_pos hpos]
        exact hkept hvalue
      · rw [if_neg hpos]
        exact hkept hvalue
  | deletion text offset =>
      rw [Entry.recall_deletion] at hvalue
      rw [Entry.reclaim_deletion]
      by_cases hpos : pos < offset.natAbs
      · rw [if_pos hpos] at hvalue ⊢
        exact hkept hvalue
      · rw [if_neg hpos] at hvalue ⊢
        by_cases hwithin : pos < offset.natAbs + text.length
        · rw [if_pos hwithin] at hvalue
          cases hvalue
        · rw [if_neg hwithin] at hvalue ⊢
          exact hkept hvalue
  | propertyChange change =>
      rw [Entry.recall_propertyChange] at hvalue
      split at hvalue <;> rename_i hin
      · rw [← Option.some.inj hvalue]
        exact (Entry.reclaim_propertyChange_inside hin).symm
      · rw [Entry.reclaim_propertyChange_outside hin]
        exact hkept hvalue
  | _ => exact hkept hvalue

/-! ### What the entries of an edit recall -/

/-- What is known after an insertion tells, by its entry, of the moment before. -/
theorem of_inserting {added : Text} (h : known.Tells (s.inserting added).doc) :
    ((Entry.insertion s.doc.point (s.doc.point + added.length)).recall known).Tells s.doc := by
  intro pos name value hvalue
  rw [Entry.recall_insertion, Nat.add_sub_cancel_left] at hvalue
  by_cases hpos : pos < s.doc.point
  · rw [if_pos hpos] at hvalue
    exact (h _ _ _ hvalue).trans (.of_eq (propertyAt_withInsertion_before hpos))
  · rw [if_neg hpos] at hvalue
    exact (h _ _ _ hvalue).trans
      (.of_eq (propertyAt_withInsertion_behind (Nat.not_lt.mp hpos)))

theorem of_deleting {start stop : Nat} {text : Text} {offset : Int}
    (h : known.Tells (s.deleting start stop).doc) (hspan : start ≤ stop)
    (hoffset : offset.natAbs = start) (hlength : text.length = stop - start) :
    ((Entry.deletion text offset).recall known).Tells s.doc := by
  intro pos name value hvalue
  rw [Entry.recall_deletion, hoffset, hlength] at hvalue
  by_cases hpos : pos < start
  · rw [if_pos hpos] at hvalue
    exact (h _ _ _ hvalue).trans
      (.of_eq (propertyAt_withoutSpan_before hspan hpos))
  · rw [if_neg hpos] at hvalue
    by_cases hwithin : pos < start + (stop - start)
    · rw [if_pos hwithin] at hvalue
      cases hvalue
    · rw [if_neg hwithin] at hvalue
      have hbehind (r : Recording) :
          ((s.recorded r).withoutSpan start stop).doc.propertyAt (pos - (stop - start)) name
            = s.doc.propertyAt (pos - (stop - start) + (stop - start)) name :=
        propertyAt_withoutSpan_behind (s := s.recorded r) hspan (by omega)
      rw [Nat.sub_add_cancel (by omega)] at hbehind
      exact (h _ _ _ hvalue).trans (.of_eq (hbehind _))

/-- A replacement leaves the properties alone, and its two entries know no better. -/
theorem of_replacing {start : Nat} {new text : Text} {offset : Int}
    (h : known.Tells (s.replacing start new).doc) (hoffset : offset.natAbs = start)
    (hlength : text.length = new.length) :
    ((Entry.deletion text offset).recall
      ((Entry.insertion start (start + new.length)).recall known)).Tells s.doc := by
  have hbefore : known.Tells s.doc := h.congr rfl
  intro pos name value hvalue
  simp only [Entry.recall_deletion, Entry.recall_insertion, hoffset, hlength, Nat.add_sub_cancel_left] at hvalue
  by_cases hpos : pos < start
  · rw [if_pos hpos, if_pos hpos] at hvalue
    exact hbefore _ _ _ hvalue
  · rw [if_neg hpos] at hvalue
    by_cases hwithin : pos < start + new.length
    · rw [if_pos hwithin] at hvalue
      cases hvalue
    · rw [if_neg hwithin, if_neg (by omega), Nat.sub_add_cancel (by omega)] at hvalue
      exact hbefore _ _ _ hvalue

end Known.Tells

theorem recall_runEntry (v : View) (name : String) (run : Run) (known : Known) (pos : Nat)
    (name' : String) : (Recording.runEntry v name run).recall known pos name'
      = if name' = name ∧ run.Holds pos then some run.old else known pos name' := by
  have hholds : (run.start ≤ pos ∧ pos < run.start + (run.stop - run.start)) ↔ run.Holds pos := by
    unfold Run.Holds
    omega
  rw [Recording.runEntry, Entry.recall]
  simp only [hholds]

/-- The entries of runs recall the value in one of the runs that hold a position, or what was
known there if none does. -/
theorem foldl_recall_runs {v : View} {name name' : String} {runs : List Run} {pos : Nat}
    {value : Json}
    (h : (runs.map (Recording.runEntry v name)).reverse.foldl (fun known e => e.recall known) known
      pos name' = some value) :
    (∃ run ∈ runs, name' = name ∧ run.Holds pos ∧ run.old = value) ∨
      (known pos name' = some value ∧ ∀ run ∈ runs, ¬(name' = name ∧ run.Holds pos)) := by
  rw [List.foldl_reverse] at h
  induction runs with
  | nil => exact Or.inr ⟨h, by simp⟩
  | cons run rest ih =>
      rw [List.map_cons, List.foldr_cons, recall_runEntry] at h
      by_cases hin : name' = name ∧ run.Holds pos
      · rw [if_pos hin] at h
        exact Or.inl ⟨run, List.mem_cons_self, hin.1, hin.2, Option.some.inj h⟩
      · rw [if_neg hin] at h
        rcases ih h with ⟨run', hrun', hheld⟩ | ⟨hknown, hno⟩
        · exact Or.inl ⟨run', List.mem_cons_of_mem _ hrun', hheld⟩
        · refine Or.inr ⟨hknown, ?_⟩
          intro run' hrun'
          rcases List.mem_cons.mp hrun' with rfl | hrun'
          · exact hin
          · exact hno run' hrun'

theorem Known.Tells.of_putting {start stop : Nat} {name : String} {value : Json} {v : View}
    (h : known.Tells (s.putting { start, stop, name, value }
      (s.doc.changedRuns start stop name value)).doc) (hspan : start ≤ stop) :
    (((s.doc.changedRuns start stop name value).map (Recording.runEntry v name)).reverse.foldl
      (fun known e => e.recall known) known).Tells s.doc := by
  have hruns := Document.runsTell_changedRuns s.doc hspan name value
  intro pos name' value' hvalue
  rcases foldl_recall_runs hvalue with ⟨run, hrun, rfl, hholds, rfl⟩ | ⟨hknown, hno⟩
  · exact hruns.old run (List.mem_reverse.mpr hrun) pos hholds
  · refine (h _ _ _ hknown).trans ((Json.Same.of_eq propertyAt_withSpan).trans ?_)
    split
    · rename_i hcovers
      obtain ⟨rfl, hstart, hlt⟩ := hcovers
      refine (hruns.rest pos hstart hlt ?_).symm
      intro run hrun hholds
      exact hno run (List.mem_reverse.mp hrun) ⟨rfl, hholds⟩
    · exact Json.Same.refl _

/-! ### The chain of what is known -/

/-- The step of the chain of what is known of the properties. -/
abbrev RecallStep : Entry → Bool → Event → Known → Known → Prop :=
  FoldStep Entry.recall fun o known => known.Tells o.before.doc

/-- From whatever is known of the document a chain leads down its log. -/
def Recalled (s : Editing Document) (past : List Event) : Prop :=
  ∀ known : Known, known.Tells s.doc → ∃ z, Descends RecallStep s past known z

theorem recall_preamble {v : View} {pos : Nat} {r : Recording} (h : e ∈ Recording.preamble v pos r)
    (known : Known) : e.recall known = known := by
  rcases Recording.mem_preamble h with rfl | ⟨position, rfl⟩ <;> rfl

/-- Taking back a longer insertion is taking back what it was made longer by, and then it. -/
theorem recall_lengthened {first start length : Nat} (h : first ≤ start) (known : Known) :
    (Entry.insertion first start).recall ((Entry.insertion start (start + length)).recall known)
      = (Entry.insertion first (start + length)).recall known := by
  funext pos name
  simp only [Entry.recall_insertion]
  by_cases hpos : pos < first
  · rw [if_pos hpos, if_pos (by omega), if_pos hpos]
  · rw [if_neg hpos, if_neg (by omega), if_neg hpos]
    congr 1
    omega

namespace Recalled

theorem kept (h : Recalled s past) (hentries : s'.doc.log.entries = s.doc.log.entries)
    (hspans : s'.doc.spans = s.doc.spans) : Recalled s' ({ before := s, what } :: past) := by
  intro known hknown
  obtain ⟨z, hchain⟩ := h known (hknown.congr hspans.symm)
  exact ⟨z, hchain.kept hentries⟩

theorem grown {new : List Entry} (h : Recalled s past)
    (hentries : s'.doc.log.entries = new ++ s.doc.log.entries)
    (hnew : ∀ e ∈ new, e.isBoundary = false)
    (htells : ∀ known : Known, known.Tells s'.doc →
      (new.foldl (fun known e => e.recall known) known).Tells s.doc) :
    Recalled s' ({ before := s, what } :: past) := by
  intro known hknown
  obtain ⟨z, hchain⟩ := h _ (htells known hknown)
  exact ⟨z, Descends.grown (Chain.grow hnew (htells known hknown) hchain) hentries⟩

theorem inserting {added : Text} {z : Text} (h : Recalled s past)
    (hlinked : Linked id .nothing z s past) :
    Recalled (s.inserting added) ({ before := s, what } :: past) := by
  rcases Recording.adds_or_lengthens_afterInsert s.view s.doc.point added.length s.recording with
    hadds | ⟨first, older, hbefore, hafter, -⟩
  · refine h.grown hadds.entries ?_ ?_
    · intro e he
      rcases List.mem_cons.mp he with rfl | he
      · rfl
      · exact Recording.isBoundary_of_mem_preamble he
    · intro known hknown
      rw [List.foldl_cons, foldl_still fun e he known => recall_preamble he known]
      exact hknown.of_inserting
  · intro known hknown
    obtain ⟨z, hchain⟩ := h _ hknown.of_inserting
    refine ⟨z, hchain.exchanged hbefore hafter rfl ?_⟩
    rintro begins o y ⟨rfl, hbegins⟩
    rw [recall_lengthened (hlinked.le_of_insertion hbefore)] at hbegins ⊢
    exact ⟨rfl, hbegins⟩

theorem deleting {start stop : Nat} (h : Recalled s past) (hshort : s.doc.text.Short)
    (hspan : start < stop) (hstop : stop ≤ s.doc.text.length) :
    Recalled (s.deleting start stop) ({ before := s, what } :: past) := by
  have hlength := Document.length_between (Nat.le_of_lt hspan) hstop
  unfold Text.Short at hshort
  refine h.grown (Recording.adds_afterDelete s.view start (s.doc.text.between start stop) true
    s.recording).entries ?_ ?_
  · intro e he
    rcases List.mem_cons.mp he with rfl | he
    · rfl
    · rcases List.mem_append.mp he with he | he
      · obtain ⟨m, delta, rfl⟩ := Recording.mem_shifts he
        rfl
      · exact Recording.isBoundary_of_mem_preamble he
  · intro known hknown
    have hshifts := foldl_still (f := Entry.recall) (l := Recording.shifts s.view start
      (start + (s.doc.text.between start stop).length) true) fun e he known => by
        obtain ⟨m, delta, rfl⟩ := Recording.mem_shifts he
        rfl
    rw [List.foldl_cons, List.foldl_append, hshifts,
      foldl_still fun e he known => recall_preamble he known]
    exact hknown.of_deleting (Nat.le_of_lt hspan)
      (Recording.natAbs_signedOffset _ _ (by omega)) hlength

theorem replacing {start : Nat} {new : Text} (h : Recalled s past) (hshort : s.doc.text.Short)
    (hstop : start + new.length ≤ s.doc.text.length) :
    Recalled (s.replacing start new) ({ before := s, what } :: past) := by
  have hlength : (s.doc.text.between start (start + new.length)).length = new.length := by
    rw [Document.length_between (Nat.le_add_right _ _) hstop, Nat.add_sub_cancel_left]
  have hentries := (Recording.adds_afterChange s.view start
    (s.doc.text.between start (start + new.length)) s.recording).entries
  rw [hlength] at hentries
  unfold Text.Short at hshort
  refine h.grown hentries ?_ ?_
  · intro e he
    rcases List.mem_cons.mp he with rfl | he
    · rfl
    · rcases List.mem_cons.mp he with rfl | he
      · rfl
      · exact Recording.isBoundary_of_mem_preamble he
  · intro known hknown
    rw [List.foldl_cons, List.foldl_cons, foldl_still fun e he known => recall_preamble he known]
    exact hknown.of_replacing (Recording.natAbs_signedOffset _ _ (by omega)) hlength

theorem afterProperty (start stop : Nat) (name : String) (value : Json) (h : Recalled s past) :
    Recalled (s.afterProperty start stop name value) ({ before := s, what } :: past) := by
  unfold Editing.afterProperty
  split
  · rename_i hin
    refine h.grown (Recording.adds_recordedRuns s.view name _ s.recording hin.2.2).entries ?_ ?_
    · intro e he
      rcases Recording.mem_recordedRuns he with ⟨run, rfl⟩ | rfl <;> rfl
    · intro known hknown
      rw [List.foldl_append, foldl_still fun e he known => by
        rw [Recording.mem_firstChanges he]
        rfl]
      exact hknown.of_putting hin.1
  · exact h.kept rfl rfl

theorem closing (h : Recalled s past) (hon : s.doc.log.disabled = false) :
    Recalled s.closing ({ before := s, what } :: past) := by
  intro known hknown
  obtain ⟨z, hchain⟩ := h known hknown
  exact ⟨z, hchain.closing hon ⟨rfl, fun hb => by cases hb⟩⟩

theorem truncated (h : Recalled s past) (ht : Truncated s s') (hhook : s.recorder.hook.isNone) :
    Recalled s' ({ before := s, what } :: past) := by
  intro known hknown
  have hspans : s.doc.spans = s'.doc.spans := by rw [ht.doc]
  obtain ⟨z, hchain⟩ := h known (hknown.congr hspans)
  exact hchain.truncated ht hhook

/-- Every call keeps the chain going. -/
theorem call {z : Text} (h : Recalled s past) (hs : Ready id s.doc.text s)
    (hlinked : Linked id .nothing z s past) :
    Recalled (c.after s) ({ before := s, what } :: past) := by
  cases c with
  | insert added =>
      rw [Call.after]
      split
      · exact h.kept rfl rfl
      · exact h.inserting hlinked
  | deleteRange start stop =>
      rw [Call.after]
      split
      · rename_i hspan
        exact h.deleting hs.short hspan.1 hspan.2
      · exact h.kept rfl rfl
  | replaceRange start new =>
      rw [Call.after]
      split
      · rename_i hstop
        exact h.replacing hs.short hstop
      · exact h.kept rfl rfl
  | putProperty start stop name value => exact h.afterProperty start stop name value
  | restoreProperty change =>
      simp only [Call.after]
      split
      · exact h.afterProperty _ _ _ _
      · exact h.kept rfl rfl
  | boundary => exact h.closing hs.sound.enabled
  | restoreMarker marker delta =>
      have hquiet := quiet_afterRestore marker delta s
      exact h.kept (by rw [Call.after, hquiet.log]) hquiet.spans
  | dropMarker marker =>
      rw [Call.after]
      split <;> exact h.kept rfl rfl
  | revisit modtime =>
      simp only [Call.after]
      split <;> exact h.kept rfl rfl
  | _ => exact h.kept rfl rfl

end Recalled

/-- The chain of what is known runs along every course. -/
theorem Course.recalled (h : Course id first past now) (hsound : first.Sound)
    (hempty : first.doc.log.entries = []) (hplain : ∀ e ∈ past, e.Plain)
    (hshort : ∀ e ∈ past, e.before.doc.text.Short) : Recalled now past := by
  induction h with
  | start =>
      intro known _
      exact ⟨known, Descends.start hempty known⟩
  | @next s s' past what hcourse hleads ih =>
      have hplain' : ∀ e ∈ past, e.Plain := fun e he => hplain e (List.mem_cons_of_mem _ he)
      have hshort' : ∀ e ∈ past, e.before.doc.text.Short :=
        fun e he => hshort e (List.mem_cons_of_mem _ he)
      have htraced := hcourse.traced hsound hempty hplain' hshort'
      have hs := hshort _ List.mem_cons_self
      obtain ⟨z, hlinked, -⟩ := htraced.linked
      have hrecalled := ih hplain' hshort'
      cases what with
      | call c =>
          rw [Call.after_of_leads htraced.sound hs hleads]
          exact hrecalled.call (htraced.ready hs) hlinked
      | aside c => exact hrecalled.kept (by rw [hleads.doc]) (by rw [hleads.doc])
      | truncation => exact hrecalled.truncated hleads (hplain _ List.mem_cons_self rfl)

/--
What the properties are at `t`, where an undo of the `count` newest units leads from `now`, if
the oldest of the units began at `before`.
-/
structure Document.PropertiesUndone (count : Nat) (now before t : Editing Document) : Prop where
  /-- A character that was not put back has the values that it had. -/
  kept : ∀ pos, (Entry.sourceAmong? (now.doc.log.units.take count).flatten pos).isSome →
    ∀ name, (t.doc.propertyAt pos name).Same (before.doc.propertyAt pos name)
  /-- Wherever a value is known, put back or not, it is the one that the property had. -/
  restored : ∀ pos name, (now.doc.recalled count pos name).isSome →
    (t.doc.propertyAt pos name).Same (before.doc.propertyAt pos name)
  /-- Where none is known, the character was put back, and has the value that there was then
  around the gap: that of the latest span, or null. -/
  putBack : ∀ pos name, now.doc.recalled count pos name = none →
    ∃ newer text offset older,
      (now.doc.log.units.take count).flatten = newer ++ .deletion text offset :: older ∧
        Entry.PutsBack text offset older pos ∧
        t.doc.propertyAt pos name
          = (newer.foldl (fun s e => e.undone s) now).doc.valueAround
              offset.natAbs offset.natAbs name
  /-- Each value is, known or not, what the entries make of those there were. -/
  reclaimed : ∀ pos name,
    t.doc.propertyAt pos name = now.doc.reclaimed count (pos + 1) pos name
  /-- If no deletion is taken back, every property has its value everywhere. -/
  everywhere : (∀ unit ∈ now.doc.log.units.take count, ∀ e ∈ unit,
      ∀ text offset, e ≠ .deletion text offset) →
    ∀ pos name, (t.doc.propertyAt pos name).Same (before.doc.propertyAt pos name)

/-- All of it follows from what is restored where something is known, and from the values. -/
theorem Document.PropertiesUndone.of_values {count : Nat} {before t : Editing Document}
    (hrestored : ∀ pos name, (now.doc.recalled count pos name).isSome →
      (t.doc.propertyAt pos name).Same (before.doc.propertyAt pos name))
    (hvalues : (now.doc.reclaimed count).Tell t.doc)
    (hgap : ∀ newer, newer <+: (now.doc.log.units.take count).flatten →
      (now.doc.valuesAfter newer).Tell (newer.foldl (fun s e => e.undone s) now).doc) :
    PropertiesUndone count now before t := by
  have hputBack : ∀ pos name, now.doc.recalled count pos name = none →
      ∃ newer text offset older,
        (now.doc.log.units.take count).flatten = newer ++ .deletion text offset :: older ∧
          Entry.PutsBack text offset older pos ∧
          t.doc.propertyAt pos name
            = (newer.foldl (fun s e => e.undone s) now).doc.valueAround
                offset.natAbs offset.natAbs name := by
    intro pos name hnone
    obtain ⟨newer, text, offset, older, hentries, hputs, hvalue⟩ := Document.exists_putBack hnone
    have hprefix : newer <+: (now.doc.log.units.take count).flatten :=
      hentries ▸ List.prefix_append newer _
    refine ⟨newer, text, offset, older, hentries, hputs, ?_⟩
    rw [hvalues.propertyAt, hgap newer hprefix _ _ name (Nat.le_succ _)]
    exact hvalue
  refine ⟨?_, hrestored, hputBack, fun pos name => hvalues.propertyAt pos name, ?_⟩
  · intro pos hsource name
    exact hrestored pos name (Document.isSome_recall_of_source hsource name)
  · intro hno pos name
    refine hrestored pos name (Option.isSome_iff_ne_none.mpr fun hnone => ?_)
    obtain ⟨newer, text, offset, older, hentries, -⟩ := hputBack pos name hnone
    obtain ⟨unit, hunit, he⟩ := List.mem_flatten.mp
      (hentries ▸ List.mem_append_right newer List.mem_cons_self)
    exact hno unit hunit _ he text offset rfl

/--
**Undo restores the properties of what it does not put back.**  An undo of the newest units
of a session down to any one leads to a moment in which every property has, at every character
that the undo did not put back, the value that it had just before that unit began.  So it has
at those of the others that an entry taken back later is about.  Any other character that was
put back has the values of the latest spans around the gap into which it was put.  If no
deletion is among what is taken back, every property is restored everywhere.
-/
theorem undo_restores_known_properties {start : Workspace} {commands : List Command}
    (h : Session start commands id first now)
    (hplain : ∀ e ∈ start.past id commands, e.Plain) :
    (unitBeginnings now (start.past id commands)).length = now.doc.log.unitCount ∧
      ∀ k o, (unitBeginnings now (start.past id commands))[k]? = some o →
        Document.UndoLeads (k + 1) now (Document.PropertiesUndone (k + 1) now o.before) := by
  have htraced := h.course.traced h.sound h.empty hplain h.short
  have hrecalled := h.course.recalled h.sound h.empty hplain h.short
  refine ⟨htraced.length_unitBeginnings, ?_⟩
  intro k o ho
  obtain ⟨z, hlinked, -⟩ := htraced.linked
  obtain ⟨_, hchain⟩ := hrecalled now.doc.known now.doc.tells_known
  have hs := htraced.ready h.short_now
  have hthen : (now.doc.recalled (k + 1)).Tells o.before.doc :=
    hchain.beginning_told (fun _ => rfl) ho
  have hundone : (now.doc.recalled (k + 1)).Tells (Document.undone (k + 1) now).doc :=
    hlinked.texts.foldl_units_undone (Q := fun (known : Known) s => known.Tells s.doc)
      (fun hs hr h => h.undone hs hr) (fun _ => rfl) (fun h => h.congr rfl) (k + 1) hs.closing
      (now.doc.tells_known.congr rfl)
  refine htraced.undoLeads h.short_now (.of_values ?_ ?_ ?_)
  · intro pos name hsome
    obtain ⟨value, hvalue⟩ := Option.isSome_iff_exists.mp hsome
    exact (hundone pos name value hvalue).symm.trans (hthen pos name value hvalue)
  · exact hlinked.texts.foldl_units_undone (Q := fun (values : Values) s => values.Tell s.doc)
      (fun hs hr h => h.undone hs hr) (fun _ => rfl) (fun h => h.congr rfl) (k + 1) hs.closing
      (now.doc.tell_valueAround.congr rfl)
  · intro newer hnewer
    exact hlinked.texts.foldl_newer_undone (Q := fun (values : Values) s => values.Tell s.doc)
      (fun hs hr h => h.undone hs hr) hs now.doc.tell_valueAround
      (hnewer.trans (Log.flatten_take_groups_prefix _ _))

/-- A property over the middle of a text; then a unit that puts it over more of it and deletes
the last character, and one in the middle. -/
def coloring : List Command :=
  [.document ⟨0⟩ (.deleteRange 2 3), .document ⟨0⟩ (.deleteRange 4 5),
    .document ⟨0⟩ (.putProperty 3 5 "face" (.str "italic")), .sheet ⟨0⟩ .insertBoundary,
    .document ⟨0⟩ (.putProperty 1 4 "face" (.str "bold"))]

/-- All values are known again, that of the last character from the entry about it, but for that
of the character in the middle, which is put back into a span. -/
theorem undo_restores_known_properties_coloring :
    ∃ now, ((Workspace.ofText ['a', 'b', 'c', 'd', 'e']).later coloring).moment? ⟨0⟩ = some now ∧
      Document.UndoSucceeds 1 now fun t =>
        (∀ pos < 5, pos ≠ 2 → (t.doc.propertyAt pos "face").Same
          (if 1 ≤ pos ∧ pos < 4 then .str "bold" else .null)) ∧
        now.doc.recalled 1 2 "face" = none ∧ t.doc.propertyAt 2 "face" = .str "bold" := by
  obtain ⟨now, hnow⟩ := Option.isSome_iff_exists.mp
    (show (((Workspace.ofText ['a', 'b', 'c', 'd', 'e']).later coloring).moment? ⟨0⟩).isSome by
      decide +kernel)
  have hfacts : (((Workspace.ofText ['a', 'b', 'c', 'd', 'e']).later coloring).moment? ⟨0⟩).all
      fun now => now.doc.text.Short ∧ HasRoom now.doc.log.entries now ∧
        (∀ pos < 5, pos ≠ 2 → (now.doc.recalled 1 pos "face").isSome) ∧
        now.doc.recalled 1 2 "face" = none ∧ now.doc.reclaimed 1 3 2 "face" = .str "bold" ∧
        (unitBeginnings now
          ((Workspace.ofText ['a', 'b', 'c', 'd', 'e']).past ⟨0⟩ coloring))[0]?.any
          fun o => ∀ pos < 5, (o.before.doc.propertyAt pos "face").Same
            (if 1 ≤ pos ∧ pos < 4 then .str "bold" else .null) := by
    decide +kernel
  simp only [hnow, Option.all_some, decide_eq_true_eq] at hfacts
  obtain ⟨hshort, hroom, hknown, hunknown, hvalue, hbegan⟩ := hfacts
  obtain ⟨o, ho, hcolored⟩ := (Option.any_eq_true _ _).mp hbegan
  have h := undo_restores_known_properties (Session.ofText coloring (by decide +kernel)
    (by decide) hnow (by decide +kernel) hshort) (by decide +kernel)
  refine ⟨now, hnow, ((h.2 0 o ho).mono ?_).succeeds hroom⟩
  intro t ht
  refine ⟨?_, hunknown, (ht.reclaimed 2 "face").trans hvalue⟩
  intro pos hpos hne
  exact (ht.restored pos "face" (hknown pos hpos hne)).trans
    (decide_eq_true_eq.mp hcolored pos hpos)

/-- A property over the middle of a text, which is then deleted. -/
def blanking : List Command :=
  [.document ⟨0⟩ (.deleteRange 1 3), .sheet ⟨0⟩ .insertBoundary,
    .document ⟨0⟩ (.putProperty 1 3 "face" (.str "bold"))]

/-- The text that is put back has no property, as it had just before the deletion. -/
theorem undo_loses_properties :
    ∃ first now o, Session (.ofText ['a', 'b', 'c', 'd']) blanking ⟨0⟩ first now ∧
      (unitBeginnings now ((Workspace.ofText ['a', 'b', 'c', 'd']).past ⟨0⟩ blanking))[0]?
        = some o ∧
      (o.before.doc.propertyAt 1 "face").Same (.str "bold") ∧
      Document.UndoSucceeds 1 now fun t => t.doc.text = ['a', 'b', 'c', 'd'] ∧
        (t.doc.propertyAt 1 "face").Same .null ∧ ¬(t.doc.propertyAt 1 "face").Same (.str "bold") := by
  have hfacts : (((Workspace.ofText ['a', 'b', 'c', 'd']).later blanking).moment? ⟨0⟩).any
      fun now => now.doc.text.Short ∧
        (unitBeginnings now ((Workspace.ofText ['a', 'b', 'c', 'd']).past ⟨0⟩ blanking))[0]?.any
          (fun o => (o.before.doc.propertyAt 1 "face").Same (.str "bold")) ∧
        Document.UndoSucceeds 1 now fun t => t.doc.text = ['a', 'b', 'c', 'd'] ∧
          (t.doc.propertyAt 1 "face").Same .null ∧
          ¬(t.doc.propertyAt 1 "face").Same (.str "bold") := by
    decide +kernel
  obtain ⟨now, hnow, hfacts⟩ := (Option.any_eq_true _ _).mp hfacts
  obtain ⟨hshort, hbegan, hundo⟩ := decide_eq_true_eq.mp hfacts
  obtain ⟨o, ho, hbold⟩ := (Option.any_eq_true _ _).mp hbegan
  exact ⟨_, now, o, Session.ofText blanking (by decide +kernel) (by decide) hnow
    (by decide +kernel) hshort, ho, decide_eq_true_eq.mp hbold, hundo⟩

end EditHistory
