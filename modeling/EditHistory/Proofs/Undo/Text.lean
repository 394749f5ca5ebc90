/-
Undo is exact on the text.

In whatever order a document is edited and undone, by itself or among others, an
undo of its `k` newest units ends with the text that stood just before the oldest of
them began, and an undo of all of them with the text at the start.

The invariant is the chain of texts of `Link`: it holds at the start, where there is
nothing to take back, and every deed extends it.  An undo is no exception, since it
records what it takes back.
-/
import EditHistory.Proofs.Undo.Link

namespace EditHistory

open Editing

variable {id : DocId} {first s s' now : Editing Document} {past : List Event} {what : Happening}

/-! ### What stays sound -/

theorem Editing.Sound.of_doc (hs : s.Sound) (hdoc : s'.doc = s.doc) : s'.Sound where
  enabled := by rw [hdoc, hs.enabled]
  point_le := by rw [hdoc]; exact hs.point_le
  spans := by rw [hdoc]; exact hs.spans

theorem Editing.Sound.truncated (hs : s.Sound) (ht : Truncated s s')
    (hhook : s.recorder.hook.isNone) : s'.Sound where
  enabled := (ht.cut hhook).disabled.trans hs.enabled
  point_le := by rw [ht.doc]; exact hs.point_le
  spans := by rw [ht.doc]; exact hs.spans

/-- A happening is plain if it is not a truncation that a hook may have a hand in. -/
def Event.Plain (e : Event) : Prop :=
  e.what.isTruncation = true → e.before.recorder.hook.isNone = true

instance (e : Event) : Decidable e.Plain := inferInstanceAs (Decidable (_ → _))

theorem Editing.Sound.leads (hs : s.Sound) (hshort : s.doc.text.Short)
    (hplain : Event.Plain { before := s, what }) (h : what.Leads id s s') :
    s'.Sound ∧ s'.doc.id = s.doc.id := by
  cases what with
  | call c =>
      rw [Call.after_of_leads hs hshort h]
      exact ⟨hs.deed (c.deed s), (c.deed s).id⟩
  | aside c => exact ⟨hs.of_doc h.doc, by rw [h.doc]⟩
  | truncation => exact ⟨hs.truncated h (hplain rfl), by rw [Truncated.doc h]⟩

/-! ### The chain of texts along a course -/

/-- Nothing is asked of an entry but that it reverts the text. -/
def Extra.nothing : Extra := fun _ _ _ _ => True

theorem Extra.admits_nothing (s : Editing Document) (o : Event) : nothing.Admits s o :=
  ⟨fun _ _ => trivial, fun _ _ _ _ _ => trivial⟩

/-- What holds of a document and its past that started from `first`. -/
structure Traced (first : Editing Document) (past : List Event) (s : Editing Document) : Prop where
  sound : s.Sound
  id : s.doc.id = first.doc.id
  linked : ∃ z, Linked first.doc.id .nothing z s past ∧
    ((∀ e ∈ past, e.what.isTruncation = false) → z = first.doc.text)

theorem Traced.ready (h : Traced first past s) (hshort : s.doc.text.Short) :
    Ready first.doc.id s.doc.text s := ⟨h.sound, h.id, rfl, hshort⟩

theorem Traced.leads (h : Traced first past s) (hshort : s.doc.text.Short)
    (hplain : Event.Plain { before := s, what }) (hleads : what.Leads id s s') :
    Traced first ({ before := s, what } :: past) s' := by
  obtain ⟨hsound, hid⟩ := h.sound.leads hshort hplain hleads
  obtain ⟨z, hlinked, hz⟩ := h.linked
  refine ⟨hsound, hid.trans h.id, ?_⟩
  have hz' : (∀ e ∈ { before := s, what } :: past, e.what.isTruncation = false) →
      z = first.doc.text :=
    fun hno => hz fun e he => hno e (List.mem_cons_of_mem _ he)
  cases what with
  | call c =>
      rw [Call.after_of_leads h.sound hshort hleads]
      exact ⟨z, hlinked.deed (h.ready hshort) (Extra.admits_nothing _ _)
        (fun _ _ _ _ _ _ h => h) (c.deed s), hz'⟩
  | aside c =>
      exact ⟨z, hlinked.kept (by rw [hleads.doc]) (by rw [hleads.doc]), hz'⟩
  | truncation =>
      obtain ⟨z', hlinked'⟩ := hlinked.truncated hleads (hplain rfl)
      exact ⟨z', hlinked', fun hno => by cases hno _ List.mem_cons_self⟩

theorem Course.traced (h : Course id first past now) (hsound : first.Sound)
    (hempty : first.doc.log.entries = []) (hplain : ∀ e ∈ past, e.Plain)
    (hshort : ∀ e ∈ past, e.before.doc.text.Short) : Traced first past now := by
  induction h with
  | start =>
      exact ⟨hsound, rfl, first.doc.text, Descends.start hempty _, fun _ => rfl⟩
  | @next s s' past what _ hleads ih =>
      have htraced := ih (fun e he => hplain e (List.mem_cons_of_mem _ he))
        (fun e he => hshort e (List.mem_cons_of_mem _ he))
      exact htraced.leads (hshort _ List.mem_cons_self) (hplain _ List.mem_cons_self) hleads

/-! ### Undo -/

/-- An undo of the `count` newest units succeeds and leads to a moment of which `post` holds. -/
def Document.UndoSucceeds (count : Nat) (s : Editing Document) (post : Editing Document → Prop) :
    Prop :=
  ∃ t, Document.undo count s = .ok () t ∧ post t

instance (count : Nat) (s : Editing Document) (post : Editing Document → Prop)
    [DecidablePred post] : Decidable (Document.UndoSucceeds count s post) :=
  match h : Document.undo count s with
  | .ok _ t => decidable_of_iff (post t) ⟨fun hp => ⟨t, h, hp⟩, fun ⟨t', h', hp⟩ => by
      cases h.symm.trans h'
      exact hp⟩
  | .error _ _ => isFalse fun ⟨_, h', _⟩ => by cases h.symm.trans h'

/--
An undo of the `count` newest units leads to a moment of which `post` holds.  It can
fail only by an overflow, and only if there is no room for what the log holds.
-/
def Document.UndoLeads (count : Nat) (s : Editing Document) (post : Editing Document → Prop) :
    Prop :=
  UndoSucceeds count s post ∨
    (¬HasRoom s.doc.log.entries s ∧ ∃ t, Document.undo count s = .error (.fault .overflow) t)

theorem Document.UndoLeads.mono {count : Nat} {post post' : Editing Document → Prop}
    (h : UndoLeads count s post) (hpost : ∀ t, post t → post' t) : UndoLeads count s post' :=
  h.imp_left fun ⟨t, hok, ht⟩ => ⟨t, hok, hpost t ht⟩

/-- With room for what the log holds, an undo does not fail. -/
theorem Document.UndoLeads.succeeds {count : Nat} {post : Editing Document → Prop}
    (h : UndoLeads count s post) (hroom : HasRoom s.doc.log.entries s) :
    UndoSucceeds count s post :=
  h.resolve_right fun hno => hno.1 hroom

/-- Down a chain of texts an undo leads where the entries are undone. -/
theorem Chain.undoLeads {x z : Text} {os : List Event} {count : Nat}
    {post : Editing Document → Prop}
    (h : Chain (TextStep id) s.doc.log.entries os x z) (hs : Ready id x s)
    (hpost : post (Document.undone count s)) : Document.UndoLeads count s post := by
  obtain rfl := hs.text
  rcases achieves_undo count h hs with hok | ⟨hno, t, ht⟩
  · exact Or.inl ⟨_, hok, hpost⟩
  · exact Or.inr ⟨hno, t, ht⟩

/-- On a document with a past, an undo leads where its entries are undone. -/
theorem Traced.undoLeads (h : Traced first past now) (hshort : now.doc.text.Short) {count : Nat}
    {post : Editing Document → Prop} (hpost : post (Document.undone count now)) :
    Document.UndoLeads count now post := by
  obtain ⟨z, hlinked, -⟩ := h.linked
  exact hlinked.texts.undoLeads (h.ready hshort) hpost

/-- Every unit of the log began once. -/
theorem Traced.length_unitBeginnings (h : Traced first past now) :
    (unitBeginnings now past).length = now.doc.log.unitCount := by
  obtain ⟨z, hlinked, -⟩ := h.linked
  rw [← Log.length_units]
  exact length_beginnings hlinked.length_origins

/-- The text that an undo down to a beginning leads to. -/
theorem Traced.text_undone (h : Traced first past now) (hshort : now.doc.text.Short) {k : Nat}
    {o : Event} (ho : (unitBeginnings now past)[k]? = some o) :
    (Document.undone (k + 1) now).doc.text = o.before.doc.text := by
  obtain ⟨z, hlinked, -⟩ := h.linked
  obtain ⟨e, x, y, s, hlink, hs, hundone⟩ := hlinked.beginning_undone
    (Ready first.doc.id) (fun hlink hs => ready_undone hs hlink.reverts) Ready.closing
    (h.ready hshort).closing ho
  unfold Document.undone Log.units
  rw [hundone, (hlink.origin rfl).1]
  exact (ready_undone hs hlink.reverts).text

/-- The text that an undo of all units leads to. -/
theorem Traced.text_undone_all (h : Traced first past now) (hshort : now.doc.text.Short)
    (hno : ∀ e ∈ past, e.what.isTruncation = false) :
    (Document.undone now.doc.log.unitCount now).doc.text = first.doc.text := by
  obtain ⟨z, hlinked, hz⟩ := h.linked
  have hready := hlinked.units_undone (Ready first.doc.id)
    (fun hlink hs => ready_undone hs hlink.reverts) Ready.closing (h.ready hshort).closing
  unfold Document.undone
  rw [← Log.length_units, List.take_length]
  exact hready.text.trans (hz hno)

/--
**Undo is exact on the text.**  Let the commands of a session edit a document, undo in
it, change the settings or concern other documents, and be refused or not, as long as
none truncates the document's log.  Then its units began one by one; an undo of the
newest of them down to any one leads back to the text just before that one began; and
an undo of all units leads back to the text at the start.
-/
theorem undo_restores_text {start : Workspace} {commands : List Command}
    (h : Session start commands id first now)
    (huncut : ∀ c ∈ commands, c.truncates id = false) :
    (unitBeginnings now (start.past id commands)).length = now.doc.log.unitCount ∧
      (∀ k o, (unitBeginnings now (start.past id commands))[k]? = some o →
        Document.UndoLeads (k + 1) now fun t => t.doc.text = o.before.doc.text) ∧
      Document.UndoLeads now.doc.log.unitCount now fun t => t.doc.text = first.doc.text := by
  have hno : ∀ e ∈ start.past id commands, e.what.isTruncation = false :=
    fun e he => Workspace.isTruncation_of_mem_past huncut he
  have htraced := h.course.traced h.sound h.empty (fun e he ht => by
    rw [hno e he] at ht
    cases ht) h.short
  refine ⟨htraced.length_unitBeginnings, fun k o ho => ?_, ?_⟩
  · exact htraced.undoLeads h.short_now (htraced.text_undone h.short_now ho)
  · exact htraced.undoLeads h.short_now (htraced.text_undone_all h.short_now hno)

/-- Two units, one of them a replacement: what they lead back to. -/
theorem undo_restores_text_abc :
    ∃ now, ((Workspace.ofText ['a', 'b', 'c']).later
        [.document ⟨0⟩ (.replaceRange 0 ['x']), .sheet ⟨0⟩ .insertBoundary,
          .document ⟨0⟩ (.deleteRange 0 2)]).moment? ⟨0⟩ = some now ∧
      Document.UndoSucceeds 1 now (fun t => t.doc.text = ['c']) ∧
      Document.UndoSucceeds 2 now (fun t => t.doc.text = ['a', 'b', 'c']) := by
  let commands : List Command := [.document ⟨0⟩ (.replaceRange 0 ['x']),
    .sheet ⟨0⟩ .insertBoundary, .document ⟨0⟩ (.deleteRange 0 2)]
  obtain ⟨now, hnow⟩ := Option.isSome_iff_exists.mp
    (show (((Workspace.ofText ['a', 'b', 'c']).later commands).moment? ⟨0⟩).isSome by
      decide +kernel)
  have hfacts : (((Workspace.ofText ['a', 'b', 'c']).later commands).moment? ⟨0⟩).all fun now =>
      now.doc.text.Short ∧ HasRoom now.doc.log.entries now ∧ now.doc.log.unitCount = 2 ∧
        (unitBeginnings now ((Workspace.ofText ['a', 'b', 'c']).past ⟨0⟩ commands))[0]?.any
          (·.before.doc.text = ['c']) := by
    decide +kernel
  simp only [hnow, Option.all_some, decide_eq_true_eq] at hfacts
  obtain ⟨hshort, hroom, hcount, hbegan⟩ := hfacts
  obtain ⟨o, ho, htext⟩ := (Option.any_eq_true _ _).mp hbegan
  have h := undo_restores_text (Session.ofText commands (by decide +kernel)
    (by decide) hnow (by decide +kernel) hshort) (by decide)
  refine ⟨now, hnow, ?_, (hcount ▸ h.2.2).succeeds hroom⟩
  have hone := (h.2.1 0 o ho).succeeds hroom
  rwa [decide_eq_true_eq.mp htext] at hone

end EditHistory
