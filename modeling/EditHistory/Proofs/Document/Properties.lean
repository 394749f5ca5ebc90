/-
Where properties are after an edit.

An insertion and a deletion push the spans along, so the value of a property at a
character stays with the character.  A character that is put in takes its values from
the spans around the place: one that reaches over it grows, one that ends there does
not.  So what an edit does to the values is told by the spans around a stretch of
text, from in front of one bound to behind another, of which a character and the gap
between two are special cases.  A deletion may take all the text from a span, and
drops it then, which changes no value.

A property that is put over a range hides what was there.  The runs that are recorded
first tell what that was, or, where they leave out a position, that it was nothing else.
-/
import EditHistory.Proofs.Document.Edits

namespace EditHistory

variable {doc doc' : Document} {s : Editing Document} {start stop pos pos' : Nat} {name : String}
  {value : Json} {added : Text} {runs : List Run} {span : Span}

theorem Json.Same.of_eq {a b : Json} (h : a = b) : a.Same b := congrArg Json.canonical h

/-! ### Bounds

A moved offset is on that side of a bound on which the offset was of the bound moved
back.  What an insertion moves, a deletion moves back, and the other way round; a
deletion moves a bound back to both ends of what it takes.
-/

namespace Offset

variable {length bound : Nat}

theorem afterInsert_lt_iff :
    afterInsert start length true pos < bound ↔ pos < afterDelete start (start + length) bound := by
  by_cases h : pos < start
  · rw [afterInsert_of_lt h]
    unfold afterDelete
    split <;> (try split) <;> omega
  · rw [afterInsert_advancing (Nat.not_lt.mp h)]
    unfold afterDelete
    split <;> (try split) <;> omega

theorem lt_afterInsert_iff :
    bound < afterInsert start length false pos ↔ afterDelete start (start + length) bound < pos := by
  by_cases h : start < pos
  · rw [afterInsert_of_gt h]
    unfold afterDelete
    split <;> (try split) <;> omega
  · rw [afterInsert_staying (Nat.not_lt.mp h)]
    unfold afterDelete
    split <;> (try split) <;> omega

theorem afterDelete_lt_iff (hspan : start ≤ stop) :
    afterDelete start stop pos < bound ↔ pos < afterInsert start (stop - start) false bound := by
  rw [lt_afterInsert_iff, Nat.add_sub_cancel' hspan]

theorem lt_afterDelete_iff (hspan : start ≤ stop) :
    bound < afterDelete start stop pos ↔ afterInsert start (stop - start) true bound < pos := by
  rw [afterInsert_lt_iff, Nat.add_sub_cancel' hspan]

end Offset

/-! ### Spans -/

namespace Span

/-- The span is one of the property that reaches from in front of `before` to behind `after`. -/
def Around (span : Span) (before after : Nat) (name : String) : Prop :=
  span.name = name ∧ span.start < before ∧ after < span.stop

instance (span : Span) (before after : Nat) (name : String) :
    Decidable (span.Around before after name) := inferInstanceAs (Decidable (_ ∧ _))

variable {before after : Nat}

/-- A span covers a character if it reaches from in front of its end to behind its start. -/
theorem covers_iff_around : span.Covers pos name ↔ span.Around (pos + 1) pos name := by
  unfold Covers Around
  rw [Nat.lt_succ_iff]

theorem around_afterInsert {length : Nat} :
    (span.afterInsert start length).Around before after name ↔
      span.Around (Offset.afterDelete start (start + length) before)
        (Offset.afterDelete start (start + length) after) name := by
  unfold Around afterInsert
  dsimp only
  rw [Offset.afterInsert_lt_iff, Offset.lt_afterInsert_iff]

theorem around_afterDelete (hspan : start ≤ stop) :
    (span.afterDelete start stop).Around before after name ↔
      span.Around (Offset.afterInsert start (stop - start) false before)
        (Offset.afterInsert start (stop - start) true after) name := by
  unfold Around afterDelete
  dsimp only
  rw [Offset.afterDelete_lt_iff hspan, Offset.lt_afterDelete_iff hspan]

end Span

/-! ### Values -/

namespace Document

/-- The value of the latest span around the bounds, and null if there is none. -/
def valueAround (doc : Document) (before after : Nat) (name : String) : Json :=
  ((doc.spans.find? (·.Around before after name)).map (·.value)).getD .null

variable {before after before' after' : Nat}

/-- The value at a character is the one around it. -/
theorem propertyAt_eq_valueAround (doc : Document) (pos : Nat) (name : String) :
    doc.propertyAt pos name = doc.valueAround (pos + 1) pos name := by
  unfold propertyAt valueAround
  simp only [Span.covers_iff_around]

theorem valueAround_congr (h : doc'.spans = doc.spans) (before after : Nat) (name : String) :
    doc'.valueAround before after name = doc.valueAround before after name := by
  unfold valueAround
  rw [h]

theorem propertyAt_congr (h : doc'.spans = doc.spans) (pos : Nat) (name : String) :
    doc'.propertyAt pos name = doc.propertyAt pos name := by
  unfold propertyAt
  rw [h]

/-- If every span is moved so that it is around the bounds as it was around others, so is the value. -/
theorem valueAround_map {f : Span → Span} (hspans : doc'.spans = doc.spans.map f)
    (hvalue : ∀ span, (f span).value = span.value)
    (haround : ∀ span, (f span).Around before' after' name ↔ span.Around before after name) :
    doc'.valueAround before' after' name = doc.valueAround before after name := by
  have hsame : ((fun span : Span => decide (span.Around before' after' name)) ∘ f)
      = fun span => decide (span.Around before after name) := by
    funext span
    simp only [Function.comp_apply, haround]
  unfold valueAround
  rw [hspans, List.find?_map, hsame, Option.map_map,
    show (fun span : Span => span.value) ∘ f = fun span => span.value from funext hvalue]

/-- Spans without text are around nothing that is something, and need not be kept. -/
theorem valueAround_filter
    (hspans : doc'.spans = doc.spans.filter fun span => span.start < span.stop)
    (hbounds : before ≤ after + 1) (name : String) :
    doc'.valueAround before after name = doc.valueAround before after name := by
  unfold valueAround
  rw [hspans, List.find?_filter]
  congr 3
  funext span
  unfold Span.Around
  by_cases h : span.start < span.stop
  · simp [h]
  · have hno : ¬(span.name = name ∧ span.start < before ∧ after < span.stop) := by omega
    simp [h, hno]

end Document

namespace Editing

open Document

variable {before after : Nat}

/-- After an insertion the value is the one that was around the bounds moved back. -/
theorem valueAround_withInsertion : (s.withInsertion start added).doc.valueAround before after name
    = s.doc.valueAround (Offset.afterDelete start (start + added.length) before)
        (Offset.afterDelete start (start + added.length) after) name :=
  valueAround_map rfl (fun _ => rfl) fun _ => Span.around_afterInsert

/-- And so after a deletion; what is dropped is around nothing. -/
theorem valueAround_withoutSpan (hspan : start ≤ stop) (hbounds : before ≤ after + 1) :
    (s.withoutSpan start stop).doc.valueAround before after name
      = s.doc.valueAround (Offset.afterInsert start (stop - start) false before)
          (Offset.afterInsert start (stop - start) true after) name := by
  have hkept : (s.withoutSpan start stop).doc.valueAround before after name
      = { s.doc with spans := s.doc.spans.map (·.afterDelete start stop) : Document }.valueAround
        before after name := valueAround_filter rfl hbounds name
  rw [hkept]
  exact valueAround_map rfl (fun _ => rfl) fun _ => Span.around_afterDelete hspan

/-- A span that was put over a range hides what is around the bounds if it is itself. -/
theorem valueAround_withSpan : (s.withSpan span).doc.valueAround before after name
    = if span.Around before after name then span.value
      else s.doc.valueAround before after name := by
  unfold valueAround
  show ((List.find? (·.Around before after name) (span :: s.doc.spans)).map (·.value)).getD .null
    = _
  rw [List.find?_cons]
  by_cases h : span.Around before after name
  · simp [h]
  · simp [h]

theorem propertyAt_withInsertion_before (h : pos < start) :
    (s.withInsertion start added).doc.propertyAt pos name = s.doc.propertyAt pos name := by
  rw [propertyAt_eq_valueAround, valueAround_withInsertion, Offset.afterDelete_of_le (by omega),
    Offset.afterDelete_of_le (by omega), propertyAt_eq_valueAround]

theorem propertyAt_withInsertion_behind (h : start ≤ pos) :
    (s.withInsertion start added).doc.propertyAt (pos + added.length) name
      = s.doc.propertyAt pos name := by
  rw [propertyAt_eq_valueAround, valueAround_withInsertion, Nat.add_right_comm,
    Offset.afterDelete_add (by omega), Offset.afterDelete_add h, propertyAt_eq_valueAround]

/-- Text that is put in has the values of the latest spans around the place. -/
theorem propertyAt_withInsertion_inside (hle : start ≤ pos) (hlt : pos < start + added.length) :
    (s.withInsertion start added).doc.propertyAt pos name
      = s.doc.valueAround start start name := by
  rw [propertyAt_eq_valueAround, valueAround_withInsertion,
    Offset.afterDelete_within (by omega) (by omega), Offset.afterDelete_within hle (by omega)]

theorem propertyAt_withoutSpan_before (hspan : start ≤ stop) (h : pos < start) :
    (s.withoutSpan start stop).doc.propertyAt pos name = s.doc.propertyAt pos name := by
  rw [propertyAt_eq_valueAround, valueAround_withoutSpan hspan (Nat.le_refl _),
    Offset.afterInsert_staying (by omega), Offset.afterInsert_of_lt h, propertyAt_eq_valueAround]

theorem propertyAt_withoutSpan_behind (hspan : start ≤ stop) (h : start ≤ pos) :
    (s.withoutSpan start stop).doc.propertyAt pos name
      = s.doc.propertyAt (pos + (stop - start)) name := by
  rw [propertyAt_eq_valueAround, valueAround_withoutSpan hspan (Nat.le_refl _),
    Offset.afterInsert_of_gt (by omega), Offset.afterInsert_advancing h, Nat.add_right_comm,
    propertyAt_eq_valueAround]

/-- A span that was put over a range tells the values there, and no others. -/
theorem propertyAt_withSpan : (s.withSpan span).doc.propertyAt pos name
    = if span.Covers pos name then span.value else s.doc.propertyAt pos name := by
  simp only [propertyAt_eq_valueAround, valueAround_withSpan, Span.covers_iff_around]

end Editing

/-! ### Runs -/

namespace Run

/-- The position is one of the run. -/
def Holds (run : Run) (pos : Nat) : Prop := run.start ≤ pos ∧ pos < run.stop

instance (run : Run) (pos : Nat) : Decidable (run.Holds pos) :=
  inferInstanceAs (Decidable (_ ∧ _))

end Run

namespace Document

/--
The runs of the positions from `start` up to `pos` tell the value at each position that
they hold; where they hold none, it is the new value.
-/
structure RunsTell (doc : Document) (name : String) (value : Json) (start pos : Nat)
    (runs : List Run) : Prop where
  within : ∀ run ∈ runs, RunWithin start pos run
  old : ∀ run ∈ runs, ∀ p, run.Holds p → run.old.Same (doc.propertyAt p name)
  rest : ∀ p, start ≤ p → p < pos → (∀ run ∈ runs, ¬run.Holds p) →
    (doc.propertyAt p name).Same value

/-- One more position, with a run of its own. -/
theorem RunsTell.new (h : doc.RunsTell name value start pos runs) (hpos : start ≤ pos)
    (hwithin : ∀ run ∈ { start := pos, stop := pos + 1, old := doc.propertyAt pos name } :: runs,
      RunWithin start (pos + 1) run) :
    doc.RunsTell name value start (pos + 1)
      ({ start := pos, stop := pos + 1, old := doc.propertyAt pos name } :: runs) where
  within := hwithin
  old := by
    intro run hrun p hp
    rcases List.mem_cons.mp hrun with rfl | hrun
    · obtain ⟨hle, hlt⟩ := hp
      dsimp only at hle hlt
      obtain rfl : p = pos := by omega
      exact Json.Same.refl _
    · exact h.old run hrun p hp
  rest := by
    intro p hstart hp hno
    have hne : p ≠ pos := by
      rintro rfl
      exact hno _ List.mem_cons_self ⟨Nat.le_refl _, Nat.lt_succ_self _⟩
    exact h.rest p hstart (by omega) fun run hrun => hno run (List.mem_cons_of_mem _ hrun)

/-- One more position, which the latest run takes in. -/
theorem RunsTell.longer {run : Run} (h : doc.RunsTell name value start pos (run :: runs))
    (hstop : run.stop = pos) (hsame : run.old.Same (doc.propertyAt pos name))
    (hwithin : ∀ r ∈ { run with stop := pos + 1 } :: runs, RunWithin start (pos + 1) r) :
    doc.RunsTell name value start (pos + 1) ({ run with stop := pos + 1 } :: runs) where
  within := hwithin
  old := by
    intro r hr p hp
    rcases List.mem_cons.mp hr with rfl | hr
    · obtain ⟨hle, hlt⟩ := hp
      dsimp only at hle hlt ⊢
      by_cases hlast : p = pos
      · rw [hlast]
        exact hsame
      · exact h.old run List.mem_cons_self p ⟨hle, by omega⟩
    · exact h.old r (List.mem_cons_of_mem _ hr) p hp
  rest := by
    intro p hstart hp hno
    have hrun := hno _ List.mem_cons_self
    obtain ⟨-, hlt, -⟩ := h.within run List.mem_cons_self
    unfold Run.Holds at hrun
    dsimp only at hrun
    refine h.rest p hstart (by omega) ?_
    intro r hr hholds
    rcases List.mem_cons.mp hr with rfl | hr
    · exact hrun ⟨hholds.1, hp⟩
    · exact hno r (List.mem_cons_of_mem _ hr) hholds

theorem RunsTell.addPosition (h : doc.RunsTell name value start pos runs) (hpos : start ≤ pos) :
    doc.RunsTell name value start (pos + 1)
      (Run.addPosition value runs pos (doc.propertyAt pos name)) := by
  have hwithin : ∀ run ∈ Run.addPosition value runs pos (doc.propertyAt pos name),
      RunWithin start (pos + 1) run := runWithin_addPosition h.within hpos
  unfold Run.addPosition at hwithin ⊢
  by_cases hsame : (doc.propertyAt pos name).Same value
  · rw [if_pos hsame] at hwithin ⊢
    refine ⟨hwithin, h.old, ?_⟩
    intro p hstart hp hno
    by_cases hlast : p = pos
    · rwa [hlast]
    · exact h.rest p hstart (by omega) hno
  · rw [if_neg hsame] at hwithin ⊢
    cases runs with
    | nil => exact h.new hpos hwithin
    | cons run earlier =>
        dsimp only at hwithin ⊢
        by_cases hlonger : run.stop = pos ∧ run.old.Same (doc.propertyAt pos name)
        · rw [if_pos hlonger] at hwithin ⊢
          exact h.longer hlonger.1 hlonger.2 hwithin
        · rw [if_neg hlonger] at hwithin ⊢
          exact h.new hpos hwithin

/-- The runs that a new value changes tell the values in the range. -/
theorem runsTell_changedRuns (doc : Document) (hspan : start ≤ stop) (name : String)
    (value : Json) :
    doc.RunsTell name value start stop (doc.changedRuns start stop name value).reverse :=
  changedRuns_induction hspan ⟨by simp, by simp, fun p hstart hp _ => by omega⟩
    fun _ _ hpos h => h.addPosition hpos

end Document

end EditHistory
