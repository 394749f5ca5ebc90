/-
The chain of texts below a log, and how it grows.

For every entry of a log there is the text that taking it back leads to, and for the
first entry of a unit that is the text of the moment in which the entry was recorded.
`Link` says so of one entry; the chain of links leads from the text as it is down to
the text that the log starts from.

Each kind of deed extends the chain at its top.  An edit pushes its entries on a
preamble, and only the lowest of them can begin a unit, so the entries of one deed
are a `Stack` that grows from the preamble upwards.  What else a claim about undo
needs to know of an entry is left open as `extra`, together with the conditions on
which the entries of a deed have it.
-/
import EditHistory.Proofs.Session.Course
import EditHistory.Proofs.Undo.Replay

namespace EditHistory

open Editing

variable {id : DocId} {x y z : Text} {e : Entry} {s s' : Editing Document} {o : Event}
  {what : Happening} {past : List Event} {entries : List Entry} {os : List Event}

/-- What is asked of an entry beside its text: whether it begins its unit, its origin, and the
text that taking it back leads to. -/
abbrev Extra := Entry → Bool → Event → Text → Prop

/-- The entry, recorded in the event `o`, leads back from the text `x` to `y`. -/
structure Link (id : DocId) (extra : Extra) (e : Entry) (begins : Bool) (o : Event)
    (x y : Text) : Prop where
  reverts : e.Reverts id x y
  /-- A unit begins when none is open, and taking back its first entry leads back to then. -/
  origin : begins = true → o.before.doc.text = y ∧ o.before.doc.log.atBoundary = true
  extra : extra e begins o y

/-- A change at this moment opens its unit without a first-change entry, if it opens one. -/
def Unmarked (s : Editing Document) : Prop :=
  s.recorder.settings.inhibitPoint = true ∨ ¬Recording.Unnoted s.view s.recording

/-- The entries that a deed at the moment `s` records in the event `o` have what is asked. -/
structure Extra.Admits (extra : Extra) (s : Editing Document) (o : Event) : Prop where
  first : s.doc.ticks.Clean → ∀ begins, extra (.firstChange s.doc.modtime) begins o s.doc.text
  other : ∀ e begins y, (∀ modtime, e ≠ .firstChange modtime) →
    (begins = true → Unmarked s) → extra e begins o y

/-- A longer insertion has what was asked of it before it was lengthened. -/
def Extra.Lengthens (extra : Extra) : Prop :=
  ∀ start stop stop' begins o y, extra (.insertion start stop) begins o y →
    extra (.insertion start stop') begins o y

/-! ### Stacks -/

/--
The entries `stack` that one deed at the moment `s` has put on top of a log so far;
taking them back leads from the text `x` to the text at `s`.
-/
structure Stacked (id : DocId) (extra : Extra) (s : Editing Document) (what : Happening)
    (os : List Event) (z : Text) (stack : List Entry) (x : Text) : Prop where
  open_unit : ∀ e ∈ stack, e.isBoundary = false
  marked : stack = [] → Unmarked s ∧ x = s.doc.text
  chain : Chain (Link id extra) (stack ++ s.doc.log.entries)
    (List.replicate stack.length { before := s, what } ++ os) x z

namespace Stacked

variable {extra : Extra} {stack new : List Entry}

/-- Another entry that reverts the text goes on top. -/
theorem push (h : Stacked id extra s what os z stack x)
    (hadmits : extra.Admits s { before := s, what }) (he : e.isBoundary = false)
    (hfirst : ∀ modtime, e ≠ .firstChange modtime) (hr : e.Reverts id y x) :
    Stacked id extra s what os z (e :: stack) y where
  open_unit := by
    intro e' he'
    rcases List.mem_cons.mp he' with rfl | he'
    · exact he
    · exact h.open_unit e' he'
  marked := fun hc => absurd hc (by simp)
  chain := by
    refine .cons ⟨hr, fun hb => ?_, hadmits.other _ _ _ hfirst fun hb => ?_⟩ h.chain
    · obtain ⟨hempty, hopens⟩ := Log.begins_append h.open_unit hb
      exact ⟨(h.marked hempty).2.symm, hopens⟩
    · exact (h.marked (Log.begins_append h.open_unit hb).1).1

/-- Entries that leave the text alone go on top. -/
theorem push_still (new : List Entry) (h : Stacked id extra s what os z stack s.doc.text)
    (hadmits : extra.Admits s { before := s, what }) (hnew : ∀ e ∈ new, e.isBoundary = false)
    (hfirst : ∀ e ∈ new, ∀ modtime, e ≠ .firstChange modtime)
    (hr : ∀ e ∈ new, e.Reverts id s.doc.text s.doc.text) :
    Stacked id extra s what os z (new ++ stack) s.doc.text := by
  induction new with
  | nil => exact h
  | cons e new ih =>
      have htail := ih (fun e he => hnew e (List.mem_cons_of_mem _ he))
        (fun e he => hfirst e (List.mem_cons_of_mem _ he))
        (fun e he => hr e (List.mem_cons_of_mem _ he))
      exact htail.push hadmits (hnew e List.mem_cons_self) (hfirst e List.mem_cons_self)
        (hr e List.mem_cons_self)

/-- The first-change entry goes at the bottom. -/
theorem firstChanges (h : Chain (Link id extra) s.doc.log.entries os s.doc.text z)
    (hadmits : extra.Admits s { before := s, what }) (hshort : s.doc.text.Short) :
    Stacked id extra s what os z (Recording.firstChanges s.view s.recording) s.doc.text := by
  unfold Recording.firstChanges
  by_cases hnoted : Recording.Unnoted s.view s.recording
  · rw [if_pos hnoted]
    refine ⟨by simp [Entry.isBoundary], fun hc => absurd hc (by simp), ?_⟩
    exact .cons ⟨⟨hshort, rfl⟩, fun hb => ⟨rfl, Log.opens_of_begins hb⟩,
      hadmits.first hnoted.1 _⟩ h
  · rw [if_neg hnoted]
    exact ⟨by simp, fun _ => ⟨Or.inr hnoted, rfl⟩, h⟩

/-- The preamble of a change goes below its entry. -/
theorem preamble (h : Chain (Link id extra) s.doc.log.entries os s.doc.text z)
    (hadmits : extra.Admits s { before := s, what }) (hshort : s.doc.text.Short) (pos : Nat) :
    Stacked id extra s what os z (Recording.preamble s.view pos s.recording) s.doc.text := by
  unfold Recording.preamble
  rw [recorder_recording]
  by_cases hin : s.recorder.settings.inhibitPoint = true
  · rw [if_pos hin]
    exact ⟨by simp, fun _ => ⟨Or.inl hin, rfl⟩, h⟩
  · rw [if_neg hin]
    have hmoves : ∀ e ∈ Recording.pointMoves s.view pos s.recording,
        ∃ position, e = .pointMove position := by
      intro e he
      unfold Recording.pointMoves at he
      split at he
      · split at he
        · cases he
        · exact ⟨_, List.mem_singleton.mp he⟩
      · cases he
    refine (firstChanges h hadmits hshort).push_still _ hadmits ?_ ?_ ?_
    · intro e he
      obtain ⟨position, rfl⟩ := hmoves e he
      rfl
    · intro e he modtime
      obtain ⟨position, rfl⟩ := hmoves e he
      simp
    · intro e he
      obtain ⟨position, rfl⟩ := hmoves e he
      exact ⟨hshort, rfl⟩

/-- What a stack has become the log of, the chain of the moment after leads down from. -/
theorem grown (h : Stacked id extra s what (origins s past) z stack x)
    (hentries : s'.doc.log.entries = stack ++ s.doc.log.entries) (htext : s'.doc.text = x) :
    Descends (Link id extra) s' ({ before := s, what } :: past) s'.doc.text z := by
  rw [htext]
  exact Descends.grown h.chain hentries

end Stacked

/-! ### Texts -/

theorem Text.without_lengthened {text added : Text} {first pos : Nat} (hfirst : first ≤ pos)
    (hpos : pos ≤ text.length) :
    (text.spliced pos added).without first (pos + added.length) = text.without first pos := by
  have hlen : (text.take pos).length = pos := by simp; omega
  unfold Text.spliced Text.without
  rw [List.append_assoc, List.take_append_of_le_length (by omega), List.take_take,
    Nat.min_eq_left hfirst, List.drop_append, hlen, List.drop_of_length_le (by omega),
    List.nil_append, List.drop_left' (by omega)]

theorem Entry.reverts_insertion {start : Nat} {added : Text} (hstart : start ≤ x.length)
    (hshort : x.Short) :
    (Entry.insertion start (start + added.length)).Reverts id (x.spliced start added) x := by
  refine ⟨hshort, Nat.le_add_right _ _, ?_, (Text.without_spliced hstart).symm⟩
  rw [Text.length_spliced hstart]
  omega

theorem Entry.reverts_deletion {start stop : Nat} {offset : Int} (hspan : start ≤ stop)
    (hstop : stop ≤ x.length) (hoffset : offset.natAbs = start) (hshort : x.Short) :
    (Entry.deletion (x.between start stop) offset).Reverts id (x.without start stop) x := by
  refine ⟨hshort, ?_, ?_⟩
  · rw [Text.length_without hspan hstop]
    omega
  · rw [hoffset, Text.spliced_without hspan hstop]

theorem Recording.natAbs_signedOffset (v : View) {start : Nat} (stop : Nat)
    (hstart : start < 0x8000000000000000) : (signedOffset v start stop).natAbs = start := by
  unfold signedOffset
  rw [Offset.toSigned_of_lt hstart]
  split <;> omega

/-! ### How the chain grows -/

section Deeds

variable {extra : Extra}

/-- The chain of the texts below the log of a document. -/
def Linked (id : DocId) (extra : Extra) (z : Text) (s : Editing Document) (past : List Event) :
    Prop :=
  Descends (Link id extra) s past s.doc.text z

/-- What it says of the texts alone. -/
theorem Linked.texts (h : Linked id extra z s past) :
    Chain (TextStep id) s.doc.log.entries (origins s past) s.doc.text z :=
  Chain.mono (fun _ _ _ _ _ hlink => hlink.reverts) h

/-- Where neither text nor log change, nothing does. -/
theorem Linked.kept (h : Linked id extra z s past)
    (hentries : s'.doc.log.entries = s.doc.log.entries) (htext : s'.doc.text = s.doc.text) :
    Linked id extra z s' ({ before := s, what } :: past) := by
  unfold Linked
  rw [htext]
  exact Descends.kept h hentries

/-- The newest entry, if it is an insertion, starts before it stops. -/
theorem Linked.le_of_insertion {start stop : Nat} {older : List Entry}
    (h : Linked id extra z s past) (hentries : s.doc.log.entries = .insertion start stop :: older) :
    start ≤ stop := by
  unfold Linked Descends at h
  rw [hentries] at h
  generalize origins s past = os at h
  cases h with
  | cons head tail => exact head.reverts.2.1

theorem Linked.inserting {added : Text} (h : Linked id extra z s past)
    (hs : Ready id s.doc.text s) (hadmits : extra.Admits s { before := s, what })
    (hlengthens : extra.Lengthens) :
    Linked id extra z (s.inserting added) ({ before := s, what } :: past) := by
  have hpoint := hs.sound.point_le
  rcases Recording.adds_or_lengthens_afterInsert s.view s.doc.point added.length s.recording with
    hadds | ⟨first, older, hbefore, hafter, -⟩
  · exact ((Stacked.preamble h hadmits hs.short s.doc.point).push hadmits rfl (by simp)
      (Entry.reverts_insertion hpoint hs.short)).grown hadds.entries rfl
  · -- The newest entry is made longer, and keeps its place in the chain.
    refine h.exchanged hbefore hafter rfl fun begins o y hlink => ?_
    refine ⟨?_, hlink.origin, hlengthens _ _ _ _ _ _ hlink.extra⟩
    obtain ⟨hshort, hfirst, hlast, hy⟩ := hlink.reverts
    refine ⟨hshort, by omega, ?_, ?_⟩
    · show s.doc.point + added.length ≤ (s.doc.text.spliced s.doc.point added).length
      rw [Text.length_spliced hpoint]
      omega
    · exact hy.trans (Text.without_lengthened hfirst hpoint).symm

theorem Linked.deleting {start stop : Nat} (h : Linked id extra z s past)
    (hs : Ready id s.doc.text s) (hadmits : extra.Admits s { before := s, what })
    (hspan : start < stop) (hstop : stop ≤ s.doc.text.length) :
    Linked id extra z (s.deleting start stop) ({ before := s, what } :: past) := by
  have hshort := hs.short
  have hstart : start < 0x8000000000000000 := by
    unfold Text.Short at hshort
    omega
  have hlength := Document.length_between (Nat.le_of_lt hspan) hstop
  have hshifted := (Stacked.preamble h hadmits hs.short (Recording.undonePoint s.view start
    (start + (s.doc.text.between start stop).length))).push_still
    (Recording.shifts s.view start (start + (s.doc.text.between start stop).length) true) hadmits
    (fun e he => by
      obtain ⟨m, delta, rfl⟩ := Recording.mem_shifts he
      rfl)
    (fun e he modtime => by
      obtain ⟨m, delta, rfl⟩ := Recording.mem_shifts he
      simp)
    (fun e he => by
      obtain ⟨m, delta, rfl⟩ := Recording.mem_shifts he
      exact ⟨hs.short, rfl⟩)
  exact (hshifted.push hadmits rfl (by simp) (Entry.reverts_deletion (Nat.le_of_lt hspan) hstop
    (Recording.natAbs_signedOffset _ _ hstart) hs.short)).grown
    (Recording.adds_afterDelete s.view start (s.doc.text.between start stop) true
      s.recording).entries rfl

theorem Linked.replacing {start : Nat} {new : Text} (h : Linked id extra z s past)
    (hs : Ready id s.doc.text s) (hadmits : extra.Admits s { before := s, what })
    (hstop : start + new.length ≤ s.doc.text.length) :
    Linked id extra z (s.replacing start new) ({ before := s, what } :: past) := by
  have hshort := hs.short
  have hstart : start < 0x8000000000000000 := by
    unfold Text.Short at hshort
    omega
  have hspan : start ≤ start + new.length := Nat.le_add_right _ _
  have hlength : (s.doc.text.between start (start + new.length)).length = new.length := by
    rw [Document.length_between hspan hstop, Nat.add_sub_cancel_left]
  have hwithout := Text.length_without hspan hstop
  have hoffset := Recording.natAbs_signedOffset s.view
    (start + (s.doc.text.between start (start + new.length)).length) hstart
  have hpulled := (Stacked.preamble h hadmits hs.short (Recording.undonePoint s.view start
    (start + (s.doc.text.between start (start + new.length)).length))).push hadmits rfl (by simp)
    (Entry.reverts_deletion hspan hstop hoffset hs.short)
  have hput : (Entry.insertion start (start + new.length)).Reverts id
      ((s.doc.text.without start (start + new.length)).spliced start new)
      (s.doc.text.without start (start + new.length)) :=
    Entry.reverts_insertion (by omega) (by unfold Text.Short at hshort ⊢; omega)
  rw [show Entry.insertion start (start + new.length) = .insertion start
    (start + (s.doc.text.between start (start + new.length)).length) by rw [hlength]] at hput
  exact (hpulled.push hadmits rfl (by simp) hput).grown
    (Recording.adds_afterChange s.view start (s.doc.text.between start (start + new.length))
      s.recording).entries rfl

theorem Linked.putting {span : Span} {runs : List Run} (h : Linked id extra z s past)
    (hs : Ready id s.doc.text s) (hadmits : extra.Admits s { before := s, what })
    (hstop : span.stop ≤ s.doc.text.length) (hne : runs ≠ [])
    (hruns : ∀ run ∈ runs, Document.RunWithin span.start span.stop run) :
    Linked id extra z (s.putting span runs) ({ before := s, what } :: past) := by
  have hstill : ∀ e ∈ (runs.map (Recording.runEntry s.view span.name)).reverse,
      ∃ run ∈ runs, e = Recording.runEntry s.view span.name run := by
    intro e he
    obtain ⟨run, hrun, rfl⟩ := List.mem_map.mp (List.mem_reverse.mp he)
    exact ⟨run, hrun, rfl⟩
  refine ((Stacked.firstChanges h hadmits hs.short).push_still _ hadmits ?_ ?_ ?_).grown
    (Recording.adds_recordedRuns s.view span.name runs s.recording hne).entries rfl
  · intro e he
    obtain ⟨run, -, rfl⟩ := hstill e he
    rfl
  · intro e he modtime
    obtain ⟨run, -, rfl⟩ := hstill e he
    simp [Recording.runEntry]
  · intro e he
    obtain ⟨run, hrun, rfl⟩ := hstill e he
    obtain ⟨hle, hlt, hin⟩ := hruns run hrun
    have hrange : run.start + (run.stop - run.start) ≤ s.doc.text.length := by omega
    exact ⟨hs.short, hs.id, Nat.le_add_right _ _, hrange, rfl⟩

theorem Linked.closing (h : Linked id extra z s past) (hs : Ready id s.doc.text s)
    (hadmits : extra.Admits s { before := s, what }) :
    Linked id extra z s.closing ({ before := s, what } :: past) := by
  refine Descends.closing h hs.sound.enabled ⟨⟨hs.short, rfl⟩, fun hb => ?_, ?_⟩
  · cases hb
  · exact hadmits.other _ _ _ (by simp) fun hb => by cases hb

/-- Every deed keeps the chain going. -/
theorem Linked.deed (h : Linked id extra z s past) (hs : Ready id s.doc.text s)
    (hadmits : extra.Admits s { before := s, what }) (hlengthens : extra.Lengthens)
    {c : Call} (hd : Deed s c s') : Linked id extra z s' ({ before := s, what } :: past) := by
  cases hd with
  | quiet _ hq => exact h.kept (by rw [hq.log]) hq.text
  | insertion _ => exact h.inserting hs hadmits hlengthens
  | deletion hspan hstop => exact h.deleting hs hadmits hspan hstop
  | replacement hstop => exact h.replacing hs hadmits hstop
  | property _ hstop hne hruns => exact h.putting hs hadmits hstop hne hruns
  | boundary => exact h.closing hs hadmits

/-- A truncation keeps the chain of what it keeps. -/
theorem Linked.truncated (h : Linked id extra z s past) (ht : Truncated s s')
    (hhook : s.recorder.hook.isNone) :
    ∃ z', Linked id extra z' s' ({ before := s, what } :: past) := by
  unfold Linked
  rw [show s'.doc.text = s.doc.text by rw [ht.doc]]
  exact Descends.truncated h ht hhook

end Deeds

end EditHistory
