/-
What holds of a document as long as nobody moves its markers by hand.

The cursor, the markers and the ends of the property spans are places in the text, and every
edit moves them with the text, each by a rule of its own.  A call of the document keeps all of
them in the text, done or refused, and keeps the markers in their order.  The ticks are in
order because a change moves on the tick of the changes, and what the log has marked is the
tick from before.

A document can be in more states than its calls lead to.  Its log can be used by itself, one
recorder can take over from another at any time, and other documents have markers in the same
table.  None of that comes near what is kept here.
-/
import EditHistory.Proofs.Session.Typing

namespace EditHistory

variable {id : DocId} {s s' : Editing Document} {c : Call} {f : Marker → Nat}

/-! ### The invariant -/

/-- Everything is in the text, and the ticks are in order. -/
structure Editing.WellKept (id : DocId) (s : Editing Document) : Prop where
  named : s.doc.id = id
  point : s.doc.point ≤ s.doc.text.length
  markers : ∀ p ∈ s.markers.positions id, p ≤ s.doc.text.length
  spans : ∀ span ∈ s.doc.spans, span.start < span.stop ∧ span.stop ≤ s.doc.text.length
  saved : s.doc.ticks.saved ≤ s.doc.ticks.modified
  marked : ∀ tick, s.doc.log.markedTick = some tick → tick < s.doc.ticks.modified

/-- The markers of the document that stand on the same side of inserted text are in the order
in which they were. -/
def Editing.OrderKept (id : DocId) (s s' : Editing Document) : Prop :=
  ∀ marker m marker' m', (marker, m) ∈ s.markers.ofDoc id → (marker', m') ∈ s.markers.ofDoc id →
    m.advances = m'.advances → m.position ≤ m'.position →
    ∃ n n', s'.markers.get? marker = some n ∧ s'.markers.get? marker' = some n' ∧
      n.position ≤ n'.position

namespace Editing.Shifted

theorem orderKept (h : s.Shifted f s') (hid : s.doc.id = id) : OrderKept id s s' := by
  subst hid
  intro marker m marker' m' hm hm' hside hle
  obtain ⟨hget, howner⟩ := MarkerTable.mem_ofDoc.mp hm
  obtain ⟨hget', howner'⟩ := MarkerTable.mem_ofDoc.mp hm'
  obtain ⟨n, hn, hpos⟩ := h.moved marker m hget howner
  obtain ⟨n', hn', hpos'⟩ := h.moved marker' m' hget' howner'
  refine ⟨n, n', hn, hn', ?_⟩
  rw [hpos, hpos']
  exact h.mono m m' hside hle

end Editing.Shifted

namespace Editing.WellKept

theorem made (recorder : Recorder) {markers : MarkerTable} (hnone : markers.positions id = [])
    (text : Text) : WellKept id { recorder, markers, doc := .ofText id text } where
  named := rfl
  point := Nat.zero_le _
  markers := by
    intro p hp
    rw [hnone] at hp
    cases hp
  spans := nofun
  saved := Nat.le_refl _
  marked := nofun

/-- Every call keeps it, done or refused. -/
theorem call (h : s.WellKept id) (hc : c.movesByHand = false) (hleads : c.Leads s s') :
    s'.WellKept id := by
  obtain rfl := h.named
  have htimely := Editing.Timely.call ⟨h.point, h.marked⟩ hleads
  obtain ⟨f, hf⟩ := hleads.shifted hc h.point
  have hmarkers := hf.positions_le 0 h.markers
  rw [hleads.eq_outcome h.point] at htimely hmarkers ⊢
  exact
    { named := by
        rw [Call.id_outcome]
        exact (c.deed s).id
      point := htimely.point_le
      markers := hmarkers
      spans := by
        rw [Call.spans_outcome, Call.text_outcome]
        exact (c.deed s).spans h.point h.spans
      saved := by
        rw [Call.ticks_outcome]
        exact Call.saved_le_after h.saved
      marked := htimely.marked }

/-- So does what the log does by itself. -/
theorem upkept {log : Log} (h : s.WellKept id) (hlog : Log.Upkept s.doc.log log) :
    Editing.WellKept id { s with doc := { s.doc with log } } :=
  { h with
    marked := by
      intro tick htick
      rcases hlog.markedTick with hsame | hnone
      · exact h.marked tick (hsame.symm.trans htick)
      · cases hnone.symm.trans htick }

/-- And what happens elsewhere. -/
theorem elsewhere {markers : MarkerTable} (h : s.WellKept id) (recorder : Recorder)
    (hmarkers : markers.positions id ⊆ s.markers.positions id) :
    Editing.WellKept id { s with recorder, markers } :=
  { h with markers := fun p hp => h.markers p (hmarkers hp) }

end Editing.WellKept

/-! ### The states of a document -/

/--
The states that a document can be in, with the recorder that works for it at the time, if
nobody moves its markers by hand.
-/
inductive Document.Attained (id : DocId) : Editing Document → Prop
  /-- It is made, empty or with a text, and has no markers yet. -/
  | made (recorder : Recorder) {markers : MarkerTable} (hnone : markers.positions id = [])
      (text : Text) : Attained id { recorder, markers, doc := .ofText id text }
  /-- It is called, and does what it is asked or refuses it. -/
  | call {s s' : Editing Document} {c : Call} (h : Attained id s) (hc : c.movesByHand = false)
      (hleads : c.Leads s s') : Attained id s'
  /-- Its log is truncated, or used by itself. -/
  | upkept {s : Editing Document} {log : Log} (h : Attained id s)
      (hlog : Log.Upkept s.doc.log log) : Attained id { s with doc := { s.doc with log } }
  /-- Another recorder takes over, or markers of other documents are made and moved. -/
  | elsewhere {s : Editing Document} {markers : MarkerTable} (h : Attained id s)
      (recorder : Recorder) (hmarkers : markers.positions id ⊆ s.markers.positions id) :
      Attained id { s with recorder, markers }

theorem Document.Attained.wellKept (h : Attained id s) : s.WellKept id := by
  induction h with
  | made recorder hnone text => exact .made recorder hnone text
  | call _ hc hleads ih => exact ih.call hc hleads
  | upkept _ hlog ih => exact ih.upkept hlog
  | elsewhere _ recorder hmarkers ih => exact ih.elsewhere recorder hmarkers

/--
**A document is well kept.**  In every state that it can be in, as long as nobody moves its
markers by hand, its cursor and its markers are in the text, every property is over something
of the text, it was not saved ahead of its changes, and the tick that its log has marked is
over.  Whatever it is asked to do, it keeps its markers in their order, apart from those that
differ in where they stand when text is inserted at them.
-/
theorem document_well_kept (h : Document.Attained id s) :
    s.WellKept id ∧ ∀ (c : Call) (s' : Editing Document), c.movesByHand = false →
      c.Leads s s' → Editing.OrderKept id s s' := by
  have hkept := h.wellKept
  refine ⟨hkept, fun c s' hc hleads => ?_⟩
  obtain ⟨f, hf⟩ := hleads.shifted hc hkept.point
  exact hf.orderKept hkept.named

/-- Two markers, text put in at both, a deletion out of range, and one that takes both along. -/
theorem document_well_kept_markers :
    ∃ s s', Document.Attained ⟨0⟩ s ∧ s.WellKept ⟨0⟩ ∧ s.markers.positions ⟨0⟩ = [1, 3] ∧
      (Call.deleteRange 0 2).run s = .ok () s' ∧ Editing.OrderKept ⟨0⟩ s s' ∧
      s'.markers.positions ⟨0⟩ = [0, 1] := by
  obtain ⟨s₁, s₂, s₃, s₄, s', hmade, hother, hset, htyped, hrefused, hdeleted, hbefore, hafter⟩ :
      ∃ s₁ s₂ s₃ s₄ s' : Editing Document,
        (Call.makeMarker 1 false).run
          { recorder := {}, markers := {}, doc := .ofText ⟨0⟩ ['a', 'b', 'c'] } = .ok () s₁ ∧
        (Call.makeMarker 1 true).run s₁ = .ok () s₂ ∧ (Call.setPoint 1).run s₂ = .ok () s₃ ∧
        (Call.insert ['x', 'y']).run s₃ = .ok () s₄ ∧
        (∃ e, (Call.deleteRange 4 9).run s₄ = .error (.error e) s₄) ∧
        (Call.deleteRange 0 2).run s₄ = .ok () s' ∧
        s₄.markers.positions ⟨0⟩ = [1, 3] ∧ s'.markers.positions ⟨0⟩ = [0, 1] :=
    ⟨_, _, _, _, _, rfl, rfl, rfl, rfl, ⟨_, rfl⟩, rfl, rfl, rfl⟩
  have hattained : Document.Attained ⟨0⟩ s₄ :=
    .call (.call (.call (.call (.call (.made {} rfl _) rfl (Or.inl hmade)) rfl (Or.inl hother)) rfl
      (Or.inl hset)) rfl (Or.inl htyped)) rfl (Or.inr hrefused)
  obtain ⟨hkept, horder⟩ := document_well_kept hattained
  exact ⟨s₄, s', hattained, hkept, hbefore, hdeleted, horder _ s' rfl (Or.inl hdeleted), hafter⟩

end EditHistory
