/-
What values the properties have after an undo, at every position.

A log keeps the text of a deletion without its properties.  When it is put back, it takes
its values from around the place, as text does that is typed there: a span that reaches
over the place grows over the text, and the latest of those tells the value.  If there is
none, the text comes back plain.

The values at the characters are not enough to follow this down a log.  Between two
characters of one value there may be none, if each has it from a span of its own.  So what
is followed are the values around any bounds, and `Entry.reclaim` tells what becomes of
them when an entry is taken back.  About the spans nothing else has to be known.
-/
import EditHistory.Proofs.Document.Runs
import EditHistory.Proofs.Undo.Text

namespace EditHistory

open Editing

/-- A value for each property around any bounds, from in front of one to behind the other. -/
abbrev Values := Nat → Nat → String → Json

namespace Values

/-- They are the values in the document, around characters, gaps and longer stretches. -/
def Tell (values : Values) (doc : Document) : Prop :=
  ∀ before after name, before ≤ after + 1 →
    doc.valueAround before after name = values before after name

/-- All characters of the range have the old value of the change, so that it changes nothing. -/
def Fulfil (values : Values) (change : PropertyChange) : Prop :=
  ∀ pos < change.stop, change.start ≤ pos →
    (values (pos + 1) pos change.name).Same change.old

instance (values : Values) (change : PropertyChange) : Decidable (values.Fulfil change) :=
  inferInstanceAs (Decidable (∀ pos < change.stop, _))

end Values

/--
The values after an entry was taken back.  An insertion is taken back by a deletion, and the
other way round, which moves the bounds: all that is in text that is put back comes from the
gap where it is put.  An entry about a property puts a span, unless that changes nothing.
-/
def Entry.reclaim (e : Entry) (values : Values) : Values := fun before after name =>
  match e with
  | .insertion start stop =>
    values (Offset.afterInsert start (stop - start) false before)
      (Offset.afterInsert start (stop - start) true after) name
  | .deletion text offset =>
    values (Offset.afterDelete offset.natAbs (offset.natAbs + text.length) before)
      (Offset.afterDelete offset.natAbs (offset.natAbs + text.length) after) name
  | .propertyChange change =>
    if (name = change.name ∧ change.start < before ∧ after < change.stop) ∧
        ¬values.Fulfil change then
      change.old
    else values before after name
  | _ => values before after name

namespace Document

/-- The values after the entries were taken back, one after the other. -/
def valuesAfter (entries : List Entry) (doc : Document) : Values :=
  entries.foldl (fun values e => e.reclaim values) doc.valueAround

/-- The values after an undo of the `count` newest units of the document. -/
def reclaimed (count : Nat) (doc : Document) : Values :=
  doc.valuesAfter (doc.log.units.take count).flatten

theorem valuesAfter_concat (entries : List Entry) (e : Entry) (doc : Document) :
    doc.valuesAfter (entries ++ [e]) = e.reclaim (doc.valuesAfter entries) := by
  unfold valuesAfter
  rw [List.foldl_append, List.foldl_cons, List.foldl_nil]

end Document

variable {id : DocId} {x y : Text} {e : Entry} {s : Editing Document} {doc doc' : Document}
  {values : Values} {pos : Nat} {name : String}

/-! ### Characters -/

namespace Entry

/-- A character keeps its values when text is taken out beside it. -/
theorem reclaim_insertion {start stop : Nat} :
    (insertion start stop).reclaim values (pos + 1) pos name
      = if pos < start then values (pos + 1) pos name
        else values (pos + (stop - start) + 1) (pos + (stop - start)) name := by
  unfold reclaim
  dsimp only
  split
  · rename_i hpos
    rw [Offset.afterInsert_staying hpos, Offset.afterInsert_of_lt hpos]
  · rename_i hpos
    rw [Offset.afterInsert_of_gt (by omega), Offset.afterInsert_advancing (Nat.not_lt.mp hpos),
      Nat.add_right_comm]

/-- A character that is put back has the values of the gap; any other keeps its own. -/
theorem reclaim_deletion {text : Text} {offset : Int} :
    (deletion text offset).reclaim values (pos + 1) pos name
      = if pos < offset.natAbs then values (pos + 1) pos name
        else if pos < offset.natAbs + text.length then values offset.natAbs offset.natAbs name
        else values (pos - text.length + 1) (pos - text.length) name := by
  unfold reclaim
  dsimp only
  by_cases hpos : pos < offset.natAbs
  · rw [if_pos hpos, Offset.afterDelete_of_le hpos, Offset.afterDelete_of_le (Nat.le_of_lt hpos)]
  · rw [if_neg hpos]
    by_cases hwithin : pos < offset.natAbs + text.length
    · rw [if_pos hwithin, Offset.afterDelete_within (by omega) hwithin,
        Offset.afterDelete_within (Nat.not_lt.mp hpos) (Nat.le_of_lt hwithin)]
    · obtain ⟨p, rfl⟩ := Nat.exists_eq_add_of_le' (show text.length ≤ pos by omega)
      rw [if_neg hwithin, Nat.add_right_comm, Offset.afterDelete_add (by omega),
        Offset.afterDelete_add (by omega), Nat.add_sub_cancel]

/-- An entry about a property gives the characters that it is about their old value. -/
theorem reclaim_propertyChange_inside {change : PropertyChange}
    (hin : name = change.name ∧ change.start ≤ pos ∧ pos < change.stop) :
    ((propertyChange change).reclaim values (pos + 1) pos name).Same change.old := by
  obtain ⟨rfl, hstart, hstop⟩ := hin
  unfold reclaim
  dsimp only
  by_cases hfulfil : values.Fulfil change
  · rw [if_neg fun h => h.2 hfulfil]
    exact hfulfil pos hstop hstart
  · rw [if_pos ⟨⟨rfl, Nat.lt_succ_iff.mpr hstart, hstop⟩, hfulfil⟩]
    exact Json.Same.refl _

theorem reclaim_propertyChange_outside {change : PropertyChange}
    (hout : ¬(name = change.name ∧ change.start ≤ pos ∧ pos < change.stop)) :
    (propertyChange change).reclaim values (pos + 1) pos name = values (pos + 1) pos name :=
  if_neg fun hin => hout ⟨hin.1.1, Nat.lt_succ_iff.mp hin.1.2.1, hin.1.2.2⟩

end Entry

/-! ### Taking back an entry -/

namespace Offset

variable {start stop length before after : Nat}

/-- Moved back over a deletion, bounds do not come to lie further apart. -/
theorem afterInsert_bounds (h : before ≤ after + 1) :
    afterInsert start length false before ≤ afterInsert start length true after + 1 := by
  by_cases hbefore : before ≤ start
  · rw [afterInsert_staying hbefore]
    unfold afterInsert
    split <;> omega
  · rw [afterInsert_of_gt (Nat.not_le.mp hbefore), afterInsert_advancing (by omega)]
    omega

theorem afterDelete_bounds (hspan : start ≤ stop) (h : before ≤ after + 1) :
    afterDelete start stop before ≤ afterDelete start stop after + 1 := by
  unfold afterDelete
  split <;> split <;> (try split) <;> (try split) <;> omega

end Offset

/-- Where a property is put, its value is around all bounds that the range is around. -/
theorem Editing.valueAround_afterProperty {start stop before after : Nat} {other : String}
    {value : Json} (hspan : start ≤ stop) (hstop : stop ≤ s.doc.text.length) :
    (s.afterProperty start stop name value).doc.valueAround before after other
      = if (other = name ∧ start < before ∧ after < stop) ∧
            ¬∀ pos < stop, start ≤ pos → (s.doc.propertyAt pos name).Same value then value
        else s.doc.valueAround before after other := by
  by_cases hsame : ∀ pos < stop, start ≤ pos → (s.doc.propertyAt pos name).Same value
  · rw [afterProperty_of_same hspan fun pos hle hlt => hsame pos hlt hle,
      if_neg fun hin => hin.2 hsame]
  · have hruns : s.doc.changedRuns start stop name value ≠ [] := by
      intro hnone
      have htells := Document.runsTell_changedRuns s.doc hspan name value
      rw [hnone] at htells
      exact hsame fun pos hlt hle => htells.rest pos hle hlt nofun
    unfold afterProperty
    rw [if_pos ⟨hspan, hstop, hruns⟩]
    refine (valueAround_withSpan (s := s.recorded _)).trans ?_
    by_cases hin : other = name ∧ start < before ∧ after < stop
    · rw [if_pos ⟨hin.1.symm, hin.2⟩, if_pos ⟨hin, hsame⟩]
    · rw [if_neg fun haround => hin ⟨haround.1.symm, haround.2⟩, if_neg fun h => hin h.1]
      rfl

theorem Document.tell_valueAround (doc : Document) : Values.Tell doc.valueAround doc :=
  fun _ _ _ _ => rfl

namespace Values.Tell

theorem congr (h : values.Tell doc) (hspans : doc'.spans = doc.spans) : values.Tell doc' :=
  fun before after name hbounds =>
    (Document.valueAround_congr hspans before after name).trans (h before after name hbounds)

theorem propertyAt (h : values.Tell doc) (pos : Nat) (name : String) :
    doc.propertyAt pos name = values (pos + 1) pos name :=
  (doc.propertyAt_eq_valueAround pos name).trans (h _ _ name (Nat.le_refl _))

theorem deleteRange {start stop : Nat} (h : values.Tell s.doc) (hspan : start ≤ stop)
    (hstop : stop ≤ s.doc.text.length) :
    ((Entry.insertion start stop).reclaim values).Tell
      ((Call.deleteRange start stop).after s).doc := by
  intro before after name hbounds
  rw [Call.after]
  by_cases hlt : start < stop
  · rw [if_pos ⟨hlt, hstop⟩]
    exact (valueAround_withoutSpan (s := s.recorded _) hspan hbounds).trans
      (h _ _ name (Offset.afterInsert_bounds hbounds))
  · rw [if_neg fun hc => hlt hc.1]
    unfold Entry.reclaim
    dsimp only
    rw [show stop - start = 0 by omega, Offset.afterInsert_zero, Offset.afterInsert_zero]
    exact h before after name hbounds

theorem insert {text : Text} {offset : Int} (h : values.Tell s.doc)
    (hpoint : s.doc.point = offset.natAbs) :
    ((Entry.deletion text offset).reclaim values).Tell ((Call.insert text).after s).doc := by
  intro before after name hbounds
  rw [Call.after]
  unfold Entry.reclaim
  dsimp only
  split
  · rename_i hempty
    rw [hempty, List.length_nil, Nat.add_zero, Offset.afterDelete_self, Offset.afterDelete_self]
    exact h before after name hbounds
  · rw [← hpoint]
    exact (valueAround_withInsertion (s := s.recorded _)).trans
      (h _ _ name (Offset.afterDelete_bounds (Nat.le_add_right _ _) hbounds))

theorem afterProperty {change : PropertyChange} (h : values.Tell s.doc)
    (hspan : change.start ≤ change.stop) (hstop : change.stop ≤ s.doc.text.length) :
    ((Entry.propertyChange change).reclaim values).Tell
      (s.afterProperty change.start change.stop change.name change.old).doc := by
  intro before after name hbounds
  rw [valueAround_afterProperty hspan hstop, h before after name hbounds]
  simp only [h.propertyAt]
  rfl

/-- What the values are before an entry is taken back tells what they are afterwards. -/
theorem undone (h : values.Tell s.doc) (hs : Ready id x s) (hr : e.Reverts id x y) :
    (e.reclaim values).Tell (e.undone s).doc := by
  obtain ⟨-, hr⟩ := hr
  cases e with
  | insertion start stop =>
      obtain ⟨hspan, hstop, -⟩ := hr
      rw [← hs.text] at hstop
      exact (h.deleteRange hspan hstop).congr rfl
  | deletion text offset =>
      have hpoint : (s.doc.setPoint offset.natAbs).point = offset.natAbs := by
        rw [Document.point_setPoint, hs.text]
        exact Nat.min_eq_left hr.1
      have hset : values.Tell (s.doc.setPoint offset.natAbs) := h.congr rfl
      have hinserted : ((Entry.deletion text offset).reclaim values).Tell
          ((Call.insert text).after { s with doc := s.doc.setPoint offset.natAbs }).doc :=
        insert hset hpoint
      rw [Entry.undone_deletion rfl]
      split
      · exact hinserted.congr rfl
      · exact hinserted
  | propertyChange change =>
      obtain ⟨hown, hspan, hstop, -⟩ := hr
      rw [← hs.text] at hstop
      have hafter : (Entry.propertyChange change).undone s
          = s.afterProperty change.start change.stop change.name change.old :=
        if_pos (hown.trans hs.id.symm)
      rw [hafter]
      exact h.afterProperty hspan hstop
  | pointMove position => exact h.congr rfl
  | markerShift marker delta => exact h.congr (quiet_afterRestore marker delta s).spans
  | firstChange modtime =>
      refine h.congr ?_
      show ((Call.revisit modtime).after s).doc.spans = s.doc.spans
      simp only [Call.after]
      split <;> rfl
  | boundary => exact h

end Values.Tell

/-- Taking back an entry leaves each character a value that is known from those before. -/
theorem Entry.propertyAt_undone (hs : Ready id x s) (hr : e.Reverts id x y) (pos : Nat)
    (name : String) : (e.undone s).doc.propertyAt pos name
      = e.reclaim s.doc.valueAround (pos + 1) pos name :=
  (s.doc.tell_valueAround.undone hs hr).propertyAt pos name

end EditHistory
