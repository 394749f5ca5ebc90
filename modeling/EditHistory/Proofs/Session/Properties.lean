/-
Properties travel with the characters.

An edit moves characters, and every character keeps the value that each property has at it.
So behind an insertion the values are found further on, behind a deletion further in front,
and a replacement, which moves nothing, leaves them where they are.  The spans that tell the
values overlap and hide each other, but that is not seen here: what each of them covers goes
along, and so does which of them is found first.

If text is put in and taken out again, both move the same characters.  What was done to
properties in between is gone if it was done to the text that is gone.
-/
import EditHistory.Proofs.Document.Runs
import EditHistory.Proofs.Session.Turns

namespace EditHistory

variable {s s' t : Editing Document} {c : Call} {added new : Text} {start stop pos : Nat}
  {name : String}

/-! ### Calls -/

namespace Call

/-- A call leaves the values that its outcome has. -/
theorem propertyAt_of_leads (hpoint : s.doc.point ≤ s.doc.text.length) (h : c.Leads s t)
    (pos : Nat) (name : String) :
    t.doc.propertyAt pos name = (c.after s).doc.propertyAt pos name := by
  rw [h.eq_outcome hpoint]
  exact Document.propertyAt_congr (spans_outcome c s) pos name

theorem propertyAt_of_ok (hpoint : s.doc.point ≤ s.doc.text.length) (h : c.run s = .ok () t)
    (pos : Nat) (name : String) :
    t.doc.propertyAt pos name = (c.after s).doc.propertyAt pos name :=
  propertyAt_of_leads hpoint (Or.inl h) pos name

end Call

namespace Editing

/-- In front of inserted text the values are as before. -/
theorem propertyAt_insert_before (hpoint : s.doc.point ≤ s.doc.text.length)
    (h : (Call.insert added).run s = .ok () t) (hpos : pos < s.doc.point) :
    t.doc.propertyAt pos name = s.doc.propertyAt pos name := by
  rw [Call.propertyAt_of_ok hpoint h, Call.after]
  split
  · rfl
  · exact propertyAt_withInsertion_before hpos

/-- Behind it they are further on. -/
theorem propertyAt_insert_behind (hpoint : s.doc.point ≤ s.doc.text.length)
    (h : (Call.insert added).run s = .ok () t) (hpos : s.doc.point ≤ pos) :
    t.doc.propertyAt (pos + added.length) name = s.doc.propertyAt pos name := by
  rw [Call.propertyAt_of_ok hpoint h, Call.after]
  split
  · rename_i hempty
    rw [hempty]
    rfl
  · exact propertyAt_withInsertion_behind hpos

/-- What is deleted is a stretch of the text. -/
theorem span_of_deleteRange_ok (h : (Call.deleteRange start stop).run s = .ok () t) :
    start ≤ stop ∧ stop ≤ s.doc.text.length := by
  by_cases hin : start ≤ stop ∧ stop ≤ s.doc.text.length
  · exact hin
  · obtain ⟨e, he⟩ : ∃ e, (Call.deleteRange start stop).run s = .error (.error e) s :=
      Document.deleteRange_outside hin
    rw [h] at he
    cases he

/-- In front of deleted text the values are as before. -/
theorem propertyAt_deleteRange_before (hpoint : s.doc.point ≤ s.doc.text.length)
    (h : (Call.deleteRange start stop).run s = .ok () t) (hpos : pos < start) :
    t.doc.propertyAt pos name = s.doc.propertyAt pos name := by
  have hspan := (span_of_deleteRange_ok h).1
  rw [Call.propertyAt_of_ok hpoint h, Call.after]
  split
  · exact propertyAt_withoutSpan_before hspan hpos
  · rfl

/-- Behind it they are those that were further on. -/
theorem propertyAt_deleteRange_behind (hpoint : s.doc.point ≤ s.doc.text.length)
    (h : (Call.deleteRange start stop).run s = .ok () t) (hpos : start ≤ pos) :
    t.doc.propertyAt pos name = s.doc.propertyAt (pos + (stop - start)) name := by
  obtain ⟨hspan, hstop⟩ := span_of_deleteRange_ok h
  rw [Call.propertyAt_of_ok hpoint h, Call.after]
  split
  · exact propertyAt_withoutSpan_behind hspan hpos
  · rw [show stop - start = 0 by omega]
    rfl

/-- A replacement leaves all values where they are. -/
theorem propertyAt_replaceRange (hpoint : s.doc.point ≤ s.doc.text.length)
    (h : (Call.replaceRange start new).run s = .ok () t) :
    t.doc.propertyAt pos name = s.doc.propertyAt pos name := by
  rw [Call.propertyAt_of_ok hpoint h, Call.after]
  split
  · exact Document.propertyAt_congr rfl pos name
  · rfl

end Editing

/-! ### Calls in between -/

/-- The call edits no text, and puts no property outside the range. -/
def Call.StaysWithin (start stop : Nat) : Call → Prop
  | .insert _ | .deleteRange .. | .replaceRange .. => False
  | .putProperty first last _ _ => start ≤ first ∧ last ≤ stop
  | .restoreProperty change => start ≤ change.start ∧ change.stop ≤ stop
  | _ => True

/-- Calls one after the other, some of which may be refused. -/
inductive Call.Follows : Editing Document → List Call → Editing Document → Prop
  | nil (s : Editing Document) : Follows s [] s
  | cons {s s' t : Editing Document} {c : Call} {rest : List Call} (hcall : c.Leads s s')
      (hrest : Follows s' rest t) : Follows s (c :: rest) t

/-- Outside the range all properties have the same values. -/
def Document.AgreeOutside (start stop : Nat) (doc doc' : Document) : Prop :=
  ∀ pos name, pos < start ∨ stop ≤ pos → doc'.propertyAt pos name = doc.propertyAt pos name

theorem Document.AgreeOutside.trans {doc doc' doc'' : Document}
    (h : AgreeOutside start stop doc doc') (h' : AgreeOutside start stop doc' doc'') :
    AgreeOutside start stop doc doc'' :=
  fun pos name hpos => (h' pos name hpos).trans (h pos name hpos)

/-- A property that is put in the range changes nothing outside it. -/
theorem Editing.agree_afterProperty {first last : Nat} {value : Json} (hfirst : start ≤ first)
    (hlast : last ≤ stop) : Document.AgreeOutside start stop s.doc
      (s.afterProperty first last name value).doc := by
  intro pos other hpos
  exact propertyAt_afterProperty_outside (by omega)

/-- A call that stays within the range changes nothing outside it. -/
theorem Call.StaysWithin.agree (hc : c.StaysWithin start stop)
    (hpoint : s.doc.point ≤ s.doc.text.length) (h : c.Leads s t) :
    Document.AgreeOutside start stop s.doc t.doc := by
  -- Where no span is changed, all values are the same.
  have hspans (hsame : (c.after s).doc.spans = s.doc.spans) :
      Document.AgreeOutside start stop s.doc (c.after s).doc :=
    fun pos name _ => Document.propertyAt_congr hsame pos name
  have hafter : Document.AgreeOutside start stop s.doc (c.after s).doc := by
    cases c with
    | insert _ => exact hc.elim
    | deleteRange _ _ => exact hc.elim
    | replaceRange _ _ => exact hc.elim
    | putProperty first last name value => exact Editing.agree_afterProperty hc.1 hc.2
    | restoreProperty change =>
        simp only [Call.after]
        split
        · exact Editing.agree_afterProperty hc.1 hc.2
        · exact fun _ _ _ => rfl
    | restoreMarker marker delta => exact hspans (Editing.quiet_afterRestore marker delta s).spans
    | dropMarker marker =>
        refine hspans ?_
        simp only [Call.after]
        split <;> rfl
    | revisit modtime =>
        refine hspans ?_
        simp only [Call.after]
        split <;> rfl
    | setPoint _ => exact hspans rfl
    | markSaved _ => exact hspans rfl
    | markUnmodified => exact hspans rfl
    | makeMarker _ _ => exact hspans rfl
    | boundary => exact hspans rfl
  intro pos name hpos
  rw [propertyAt_of_leads hpoint h]
  exact hafter pos name hpos

/-- So with any number of such calls. -/
theorem Call.Follows.agree {calls : List Call} (h : Call.Follows s calls t)
    (hpoint : s.doc.point ≤ s.doc.text.length) (hcalls : ∀ c ∈ calls, c.StaysWithin start stop) :
    t.doc.point ≤ t.doc.text.length ∧ Document.AgreeOutside start stop s.doc t.doc := by
  induction h with
  | nil s => exact ⟨hpoint, fun _ _ _ => rfl⟩
  | @cons s s' t c rest hcall hrest ih =>
      obtain ⟨hpoint', hagree⟩ := ih (hcall.point_le hpoint) fun c hc =>
        hcalls c (List.mem_cons_of_mem _ hc)
      exact ⟨hpoint', ((hcalls c List.mem_cons_self).agree hpoint hcall).trans hagree⟩

/-! ### Sessions -/

/-- Where the values are that the properties had in `s`, after an edit. -/
structure Editing.PropertiesTravel (s : Editing Document) : Prop where
  insert : ∀ added t, (Call.insert added).run s = .ok () t → ∀ pos name,
    (pos < s.doc.point → t.doc.propertyAt pos name = s.doc.propertyAt pos name) ∧
    (s.doc.point ≤ pos →
      t.doc.propertyAt (pos + added.length) name = s.doc.propertyAt pos name)
  deleteRange : ∀ start stop t, (Call.deleteRange start stop).run s = .ok () t → ∀ pos name,
    (pos < start → t.doc.propertyAt pos name = s.doc.propertyAt pos name) ∧
    (start ≤ pos → t.doc.propertyAt pos name = s.doc.propertyAt (pos + (stop - start)) name)
  replaceRange : ∀ start new t, (Call.replaceRange start new).run s = .ok () t → ∀ pos name,
    t.doc.propertyAt pos name = s.doc.propertyAt pos name
  /-- Text that is put in and taken out again leaves no trace, whatever was done in it. -/
  back : ∀ added t₁ calls t₂ t, (Call.insert added).run s = .ok () t₁ →
    (∀ c ∈ calls, c.StaysWithin s.doc.point (s.doc.point + added.length)) →
    Call.Follows t₁ calls t₂ →
    (Call.deleteRange s.doc.point (s.doc.point + added.length)).run t₂ = .ok () t →
    ∀ pos name, t.doc.propertyAt pos name = s.doc.propertyAt pos name

theorem Editing.propertiesTravel (hpoint : s.doc.point ≤ s.doc.text.length) :
    s.PropertiesTravel where
  insert := fun _ _ h _ _ =>
    ⟨propertyAt_insert_before hpoint h, propertyAt_insert_behind hpoint h⟩
  deleteRange := fun _ _ _ h _ _ =>
    ⟨propertyAt_deleteRange_before hpoint h, propertyAt_deleteRange_behind hpoint h⟩
  replaceRange := fun _ _ _ h _ _ => propertyAt_replaceRange hpoint h
  back := by
    intro added t₁ calls t₂ t hinsert hcalls hfollows hdelete pos name
    have hleads : (Call.insert added).Leads s t₁ := Or.inl hinsert
    obtain ⟨hpoint₂, hagree⟩ := hfollows.agree (hleads.point_le hpoint) hcalls
    by_cases hpos : pos < s.doc.point
    · calc t.doc.propertyAt pos name
        _ = t₂.doc.propertyAt pos name := propertyAt_deleteRange_before hpoint₂ hdelete hpos
        _ = t₁.doc.propertyAt pos name := hagree pos name (Or.inl hpos)
        _ = s.doc.propertyAt pos name := propertyAt_insert_before hpoint hinsert hpos
    · have hle := Nat.not_lt.mp hpos
      calc t.doc.propertyAt pos name
        _ = t₂.doc.propertyAt (pos + (s.doc.point + added.length - s.doc.point)) name :=
          propertyAt_deleteRange_behind hpoint₂ hdelete hle
        _ = t₂.doc.propertyAt (pos + added.length) name := by rw [Nat.add_sub_cancel_left]
        _ = t₁.doc.propertyAt (pos + added.length) name :=
          hagree _ name (Or.inr (Nat.add_le_add_right hle _))
        _ = s.doc.propertyAt pos name := propertyAt_insert_behind hpoint hinsert hle

namespace Workspace

variable {begun : Workspace} {commands : List Command} {id : DocId}

/--
**Properties travel with the characters.**  After any commands, an insertion into a document
leaves the values in front of the cursor and moves those behind it on by the length of the
text; a deletion leaves those in front of the text and moves those behind it to its place;
and a replacement leaves them all.  If the inserted text is deleted again, all values are as
before, whatever properties were put in it in between.
-/
theorem properties_travel (hsound : begun.Sound) (hunbroken : begun.Unbroken commands)
    (hs : (begun.later commands).moment? id = some s) : s.PropertiesTravel := by
  obtain ⟨hsheet, -, -⟩ := moment?_eq_some.mp hs
  exact Editing.propertiesTravel ((hsound.later hunbroken).inPlace id _ hsheet).2

/-- A property over the middle of a text, and the cursor in the middle of it. -/
def amidst : List Command :=
  [.sheet ⟨0⟩ (.setPoint 2), .document ⟨0⟩ (.putProperty 1 3 "face" (.str "bold"))]

/-- Text that is put in there gets another property, is refused a third, and is taken out. -/
theorem properties_travel_amidst :
    ∃ s t₁ t₂ t, ((ofText ['a', 'b', 'c', 'd']).later amidst).moment? ⟨0⟩ = some s ∧
      (Call.insert ['x', 'y']).run s = .ok () t₁ ∧
      Call.Follows t₁ [.putProperty 2 4 "face" (.str "italic"), .putProperty 4 3 "face" .null] t₂ ∧
      (Call.deleteRange 2 4).run t₂ = .ok () t ∧
      (t₂.doc.propertyAt 2 "face").Same (.str "italic") ∧
      (t.doc.propertyAt 2 "face").Same (.str "bold") ∧
      ∀ pos name, t.doc.propertyAt pos name = s.doc.propertyAt pos name := by
  obtain ⟨s, t₁, t₂, t, hs, hpoint, hinsert, hput, hrefused, hdelete, hinside, hback⟩ :
      ∃ s t₁ t₂ t, ((ofText ['a', 'b', 'c', 'd']).later amidst).moment? ⟨0⟩ = some s ∧
        s.doc.point = 2 ∧ (Call.insert ['x', 'y']).run s = .ok () t₁ ∧
        (Call.putProperty 2 4 "face" (.str "italic")).run t₁ = .ok () t₂ ∧
        (∃ e, (Call.putProperty 4 3 "face" .null).run t₂ = .error (.error e) t₂) ∧
        (Call.deleteRange 2 4).run t₂ = .ok () t ∧
        (t₂.doc.propertyAt 2 "face").Same (.str "italic") ∧
        (t.doc.propertyAt 2 "face").Same (.str "bold") :=
    ⟨_, _, _, _, rfl, rfl, rfl, rfl, ⟨_, rfl⟩, rfl, by decide +kernel, by decide +kernel⟩
  have hfollows : Call.Follows t₁
      [.putProperty 2 4 "face" (.str "italic"), .putProperty 4 3 "face" .null] t₂ :=
    .cons (Or.inl hput) (.cons (Or.inr hrefused) (.nil _))
  have hwithin : ∀ c ∈ ([.putProperty 2 4 "face" (.str "italic"), .putProperty 4 3 "face" .null] :
      List Call), c.StaysWithin s.doc.point (s.doc.point + ['x', 'y'].length) := by
    rw [hpoint]
    exact List.forall_mem_cons.mpr ⟨⟨by decide, by decide⟩,
      List.forall_mem_singleton.mpr ⟨by decide, by decide⟩⟩
  have htravel := properties_travel (sound_ofText _)
    (show (ofText ['a', 'b', 'c', 'd']).Unbroken amidst by decide +kernel) hs
  refine ⟨s, t₁, t₂, t, hs, hinsert, hfollows, hdelete, hinside, hback, ?_⟩
  exact htravel.back _ t₁ _ t₂ t hinsert hwithin hfollows (by rw [hpoint]; exact hdelete)

end Workspace

end EditHistory
