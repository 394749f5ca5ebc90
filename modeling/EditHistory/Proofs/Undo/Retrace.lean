/-
What an undo records leads back.

The entries of a unit are taken back one by one, and each time something is recorded.  On an
empty log all that was recorded so far is one open unit, and taking it back in turn leads to
the text there was at the start: that is `Retraces`, and every call but a boundary keeps it.

Markers are led back as well, but not by calls alone.  What puts a marker back after a
deletion was taken back is not recorded, and so `Unwinds` asks of a marker that stands in the
text that was reinserted last that it be led back from anywhere in there.  An entry that
settles the marker, as `Seat` has it, moves it from one such place to another.
-/
import EditHistory.Proofs.Undo.Seat

namespace EditHistory

open Editing

variable {id : DocId} {x y z origin : Text} {e : Entry} {s s' : Editing Document}
  {past : List Event} {entries unit rest : List Entry} {units : List (List Entry)}
  {os : List Event} {marker : MarkerId} {advances : Bool} {p place : Nat}

/-! ### What taking back a unit comes to -/

/-- The text after an entry was taken back. -/
def Entry.textUndone : Entry → Text → Text
  | .insertion start stop, x => x.without start stop
  | .deletion text offset, x => x.spliced offset.natAbs text
  | _, x => x

theorem Entry.Reverts.eq_textUndone (h : e.Reverts id x y) : y = e.textUndone x := by
  obtain ⟨-, h⟩ := h
  cases e with
  | insertion start stop => exact h.2.2
  | deletion text offset => exact h.2
  | propertyChange change => exact h.2.2.2
  | _ => exact h

theorem StandsAt.unique {q : Nat} (h : StandsAt id marker advances p s)
    (h' : StandsAt id marker advances q s) : p = q := by
  obtain ⟨m, hget, -, -, rfl⟩ := h
  obtain ⟨m', hget', -, -, rfl⟩ := h'
  rw [Option.some.inj (hget.symm.trans hget')]

theorem newestOrigins_boundary (older : List Entry) (o : Event) :
    newestOrigins (.boundary :: older) (o :: os) = newestOrigins older os := rfl

/-- Beside a unit there are its origins. -/
theorem takeWhile_zip_unit (hunit : ∀ e ∈ unit, e.isBoundary = false)
    (hrest : Log.opens rest = true) (hlen : os.length = (unit ++ rest).length) :
    (((unit ++ rest).zip os).takeWhile (!·.1.isBoundary)).map (·.2) = os.take unit.length := by
  induction unit generalizing os with
  | nil =>
      cases rest with
      | nil => rfl
      | cons e rest =>
          have he : e.isBoundary = true := by simpa [Log.opens] using hrest
          cases os with
          | nil => rfl
          | cons o os => simp [he]
  | cons e unit ih =>
      cases os with
      | nil => simp
      | cons o os =>
          have he := hunit e List.mem_cons_self
          have htail := ih (fun e he => hunit e (List.mem_cons_of_mem _ he)) (Nat.succ.inj hlen)
          simp [he, htail]

theorem newestOrigins_unit (hne : unit ≠ []) (hunit : ∀ e ∈ unit, e.isBoundary = false)
    (hrest : Log.opens rest = true) (hlen : os.length = (unit ++ rest).length) :
    newestOrigins (unit ++ rest) os = os.take unit.length := by
  rw [← takeWhile_zip_unit hunit hrest hlen]
  cases unit with
  | nil => exact absurd rfl hne
  | cons e unit =>
      cases os with
      | nil => rfl
      | cons o os => simp [newestOrigins, hunit e List.mem_cons_self]

namespace Chain

/-- The text that taking back everything leads to. -/
theorem foldl_textUndone (h : Chain (TextStep id) entries os x z) :
    entries.foldl (fun x e => e.textUndone x) x = z := by
  induction h with
  | nil => rfl
  | cons head _ ih => rw [List.foldl_cons, ← Entry.Reverts.eq_textUndone head, ih]

/-- The moment that taking back a unit leads to has the text that this leads to. -/
theorem ready_foldl_undone (h : Chain (TextStep id) (unit ++ rest) os x z) (hs : Ready id x s) :
    Ready id (unit.foldl (fun x e => e.textUndone x) x)
      (unit.foldl (fun s e => e.undone s) s) := by
  induction unit generalizing os x s with
  | nil => exact hs
  | cons e unit ih =>
      cases h with
      | cons head tail =>
          rw [List.foldl_cons, List.foldl_cons, ← Entry.Reverts.eq_textUndone head]
          exact ih tail (ready_undone hs head)

/-- A marker is then where taking back the unit takes it. -/
theorem standsAt_foldl_undone (h : Chain (TextStep id) (unit ++ rest) os x z) (hs : Ready id x s)
    (hm : StandsAt id marker advances p s) :
    StandsAt id marker advances (unit.foldl (fun p e => e.markerUndone marker advances p) p)
      (unit.foldl (fun s e => e.undone s) s) := by
  induction unit generalizing os x s p with
  | nil => exact hm
  | cons e unit ih =>
      cases h with
      | cons head tail =>
          exact ih tail (ready_undone hs head) (standsAt_undone hs head hm)

/-- Above the newest unit there are boundaries at most, which can be passed over. -/
theorem newest_unit {σ : Type} {R : Entry → Bool → Event → σ → σ → Prop} {a c : σ} (P : σ → Prop)
    (hskip : ∀ {o a b}, R .boundary false o a b → P a → P b) (h : Chain R entries os a c)
    (ha : P a) (hunits : Log.groups [] entries = unit :: units) :
    ∃ rest os' a', Chain R (unit ++ rest) os' a' c ∧ P a' ∧
      os'.take unit.length = newestOrigins entries os := by
  induction entries using Log.unit_induction generalizing os a with
  | nil => cases hunits
  | boundary older ih =>
      cases h with
      | cons head tail =>
          rw [newestOrigins_boundary]
          exact ih tail (hskip head ha) hunits
  | unit body e rest hbody he hrest ih =>
      have hsplit : body ++ e :: rest = (body ++ [e]) ++ rest := by simp
      rw [Log.groups_unit hbody he hrest] at hunits
      obtain rfl : body ++ [e] = unit := (List.cons.inj hunits).1
      rw [hsplit] at h ⊢
      refine ⟨rest, os, a, h, ha, (newestOrigins_unit (by simp) ?_ hrest h.length_eq).symm⟩
      intro b hb
      rcases List.mem_append.mp hb with hb | hb
      · exact hbody b hb
      · rwa [List.mem_singleton.mp hb]

end Chain

/-! ### What is recorded meanwhile leads back -/

/-- What every call but a boundary keeps, taking back an entry keeps. -/
theorem Entry.kept_undone {P : Editing Document → Prop}
    (hP : ∀ {x s s' c}, Ready id x s → Deed s c s' → c ≠ .boundary → P s → P s')
    (hs : Ready id x s) (hr : e.Reverts id x y) (h : P s) : P (e.undone s) := by
  have hstep {x : Text} {s : Editing Document} (c : Call) (hs : Ready id x s)
      (hc : c ≠ .boundary) (h : P s) : P (c.after s) := hP hs (c.deed s) hc h
  obtain ⟨hshort, hr⟩ := hr
  cases e with
  | insertion start stop =>
      obtain ⟨hspan, hstop, hy⟩ := hr
      have hdeleted := hstep (.deleteRange start stop) hs (by simp) h
      exact hstep (.setPoint start) (ready_deleteRange hs hspan hstop hy hshort) (by simp) hdeleted
  | deletion text offset =>
      obtain ⟨hoffset, hy⟩ := hr
      have hpoint : (s.doc.setPoint offset.natAbs).point = offset.natAbs := by
        rw [Document.point_setPoint, hs.text]
        omega
      have hbegun := hs.setPoint offset.natAbs
      have hinserted := hstep (.insert text) hbegun (by simp)
        (hstep (.setPoint offset.natAbs) hs (by simp) h)
      rw [Entry.undone_deletion rfl]
      split
      · exact hstep (.setPoint offset.natAbs) (ready_insert hbegun hpoint hy hshort) (by simp)
          hinserted
      · exact hinserted
  | propertyChange change => exact hstep (.restoreProperty change) hs (by simp) h
  | markerShift other delta => exact hstep (.restoreMarker other delta) hs (by simp) h
  | firstChange modtime => exact hstep (.revisit modtime) hs (by simp) h
  | pointMove position => exact hstep (.setPoint position) hs (by simp) h
  | boundary => exact h

/-- All that the log holds is one open unit, and taking it back leads to the text `origin`. -/
structure Retraces (id : DocId) (origin : Text) (s : Editing Document) : Prop where
  linked : ∃ past, Linked id .nothing origin s past
  open_unit : ∀ e ∈ s.doc.log.entries, e.isBoundary = false

namespace Retraces

theorem start (hs : Ready id x s) (hempty : s.doc.log.entries = []) : Retraces id x s where
  linked := by
    refine ⟨[], ?_⟩
    rw [← hs.text]
    exact Descends.start hempty _
  open_unit := by simp [hempty]

theorem deed {c : Call} (h : Retraces id origin s) (hs : Ready id x s) (hd : Deed s c s')
    (hc : c ≠ .boundary) : Retraces id origin s' where
  linked := by
    obtain ⟨past, hlinked⟩ := h.linked
    obtain rfl := hs.text
    exact ⟨{ before := s, what := .call c } :: past, hlinked.deed hs (Extra.admits_nothing _ _)
      (fun _ _ _ _ _ _ h => h) hd⟩
  open_unit := by
    intro e he
    rcases hd.mem_entries hc he with he | hwithin
    · exact h.open_unit e he
    · exact hwithin.inUnit

theorem undone (h : Retraces id origin s) (hs : Ready id x s) (hr : e.Reverts id x y) :
    Retraces id origin (e.undone s) :=
  Entry.kept_undone (fun hs hd hc h => h.deed hs hd hc) hs hr h

/-- The chain of the texts down what was recorded. -/
theorem chain (h : Retraces id origin s) :
    ∃ os, Chain (TextStep id) s.doc.log.entries os s.doc.text origin := by
  obtain ⟨past, hlinked⟩ := h.linked
  exact ⟨_, Chain.mono (fun _ _ _ _ _ hlink => hlink.reverts) hlinked⟩

end Retraces

/-- After the entries of a unit were taken back on an empty log. -/
theorem Chain.retraces (h : Chain (TextStep id) (unit ++ rest) os x z) (hs : Ready id x s)
    (hempty : s.doc.log.entries = []) :
    Retraces id x (unit.foldl (fun s e => e.undone s) s) := by
  obtain ⟨b, ⟨-, hretraces⟩, -⟩ := h.foldl_undone
    (fun y s => Ready id y s ∧ Retraces id x s)
    (fun hr hs => ⟨ready_undone hs.1 hr, hs.2.undone hs.1 hr⟩) ⟨hs, Retraces.start hs hempty⟩
  exact hretraces

/-! ### Markers -/

/-- Where a marker gets from `p` when all that the log holds is taken back. -/
def unwound (marker : MarkerId) (advances : Bool) (s : Editing Document) (p : Nat) : Nat :=
  s.doc.log.entries.foldl (fun p e => e.markerUndone marker advances p) p

theorem unwound_deleteRange {start stop : Nat} (hs : Ready id x s) (hspan : start ≤ stop)
    (hstop : stop ≤ x.length) (h : StandsAt id marker advances p s) :
    unwound marker advances ((Call.deleteRange start stop).after s)
        (Offset.afterDelete start stop p) = unwound marker advances s p := by
  obtain rfl := hs.text
  rw [Call.after]
  by_cases hlt : start < stop
  · obtain ⟨m, hget, howner, rfl, rfl⟩ := h
    rw [if_pos ⟨hlt, hstop⟩]
    unfold unwound
    rw [entries_deleting hspan hstop, List.foldl_append,
      foldl_markerUndone_deleting hs hspan hstop hget howner]
  · obtain rfl : start = stop := by omega
    rw [if_neg fun hc => hlt hc.1, Offset.afterDelete_self]

/--
An insertion is recorded as a part, perhaps, of a longer one that starts at `first`.  Either
way taking it back takes a marker to where the older part alone would have taken it.
-/
theorem unwound_insert (marker : MarkerId) (advances : Bool)
    (hlinked : Linked id .nothing z s past) (added : Text) :
    ∃ first ≤ s.doc.point, ∃ back : Nat → Nat,
      (∀ q, unwound marker advances s q = back (Offset.afterDelete first s.doc.point q)) ∧
      ∀ q, unwound marker advances ((Call.insert added).after s) q
        = back (Offset.afterDelete first (s.doc.point + added.length) q) := by
  by_cases hne : added = []
  · refine ⟨s.doc.point, Nat.le_refl _, unwound marker advances s, ?_, ?_⟩
    · intro q
      rw [Offset.afterDelete_self]
    · intro q
      rw [Call.after, if_pos hne, hne, List.length_nil, Nat.add_zero, Offset.afterDelete_self]
  · rw [Call.after, if_neg hne]
    rcases Recording.adds_or_lengthens_afterInsert s.view s.doc.point added.length s.recording
      with hadds | ⟨first, older, hbefore, hafter, -⟩
    · have hentries : (s.inserting added).doc.log.entries = _ ++ s.doc.log.entries := hadds.entries
      refine ⟨s.doc.point, Nat.le_refl _, unwound marker advances s, ?_, ?_⟩
      · intro q
        rw [Offset.afterDelete_self]
      · intro q
        unfold unwound
        rw [hentries, List.foldl_append, List.foldl_cons,
          foldl_still fun e he => markerUndone_preamble he, Entry.markerUndone]
    · have hbefore' : s.doc.log.entries = .insertion first s.doc.point :: older := hbefore
      have hafter' : (s.inserting added).doc.log.entries
          = .insertion first (s.doc.point + added.length) :: older := hafter
      refine ⟨first, hlinked.le_of_insertion hbefore',
        fun q => older.foldl (fun p e => e.markerUndone marker advances p) q, ?_, ?_⟩
      · intro q
        unfold unwound
        rw [hbefore', List.foldl_cons, Entry.markerUndone]
      · intro q
        unfold unwound
        rw [hafter', List.foldl_cons, Entry.markerUndone]

theorem unwound_afterProperty (start stop : Nat) (name : String) (value : Json)
    (s : Editing Document) (q : Nat) :
    unwound marker advances (s.afterProperty start stop name value) q
      = unwound marker advances s q := by
  unfold Editing.afterProperty
  split
  · rename_i h
    have hentries : (s.putting { start, stop, name, value }
        (s.doc.changedRuns start stop name value)).doc.log.entries = _ ++ s.doc.log.entries :=
      (Recording.adds_recordedRuns s.view name _ s.recording h.2.2).entries
    unfold unwound
    rw [hentries, List.foldl_append, foldl_still fun e he => markerUndone_recordedRuns he]
  · rfl

/--
The marker is in its seat, and all that the log holds leads from there back to `place`; and
so it does from anywhere in the text that was reinserted last, if the seat is in it.
-/
structure Unwinds (id : DocId) (marker : MarkerId) (advances : Bool) (place : Nat) (x : Seat)
    (s : Editing Document) : Prop where
  stands : StandsAt id marker advances x.position s
  back : unwound marker advances s x.position = place
  within : x.Holds x.position → ∀ q, x.Holds q → unwound marker advances s q = place

namespace Unwinds

variable {seat : Seat}

theorem bare (hstands : StandsAt id marker advances p s)
    (hback : unwound marker advances s p = place) :
    Unwinds id marker advances place (Seat.bare p) s :=
  ⟨hstands, hback, fun hin => absurd hin (Seat.not_holds_bare _ _)⟩

/-- Taking back an entry that settles the marker records what leads it back as before. -/
theorem undone (h : Unwinds id marker advances place seat s) (hs : Ready id x s)
    (hr : e.Reverts id x y) (hlinked : ∃ past, Linked id .nothing z s past)
    (hsettles : e.Settles marker advances seat) :
    Unwinds id marker advances place (e.seatUndone marker advances seat) (e.undone s) := by
  have hstands := standsAt_undone hs hr h.stands
  obtain ⟨-, hr⟩ := hr
  cases e with
  | insertion start stop =>
      exact bare hstands ((unwound_deleteRange hs hr.1 hr.2.1 h.stands).trans h.back)
  | deletion text offset =>
      have hpoint : (s.doc.setPoint offset.natAbs).point = offset.natAbs := by
        have hoffset := hr.1
        rw [Document.point_setPoint, hs.text]
        omega
      obtain ⟨past, hlinked⟩ := hlinked
      have hlinked' : Linked id .nothing z { s with doc := s.doc.setPoint offset.natAbs }
          ({ before := s, what := .call (.setPoint offset.natAbs) } :: past) :=
        hlinked.kept rfl rfl
      obtain ⟨first, hfirst, back, hbefore, hafter⟩ :=
        unwound_insert marker advances hlinked' text
      dsimp only at hfirst hbefore hafter
      rw [hpoint] at hfirst hbefore hafter
      have hundone : ∀ q, unwound marker advances ((Entry.deletion text offset).undone s) q
          = back (Offset.afterDelete first (offset.natAbs + text.length) q) := by
        intro q
        rw [← hafter, Entry.undone_deletion rfl]
        split <;> rfl
      have hback : back (Offset.afterDelete first (offset.natAbs + text.length)
          (Offset.afterInsert offset.natAbs text.length advances seat.position)) = place := by
        rw [Offset.afterDelete_afterInsert_lengthened hfirst, ← hbefore]
        exact h.back
      refine ⟨hstands, (hundone _).trans hback, ?_⟩
      -- Deleting the reinserted text takes everything in it to one place.
      intro hin q hq
      have hcollapse : ∀ q, offset.natAbs ≤ q ∧ q ≤ offset.natAbs + text.length →
          Offset.afterDelete first (offset.natAbs + text.length) q = first :=
        fun q hq => Offset.afterDelete_within (Nat.le_trans hfirst hq.1) hq.2
      rw [hundone, hcollapse q hq]
      exact (congrArg back (hcollapse _ hin)).symm.trans hback
  | markerShift other delta =>
      have hundone : ∀ q, unwound marker advances ((Entry.markerShift other delta).undone s) q
          = unwound marker advances s q := by
        intro q
        unfold unwound
        rw [show ((Entry.markerShift other delta).undone s).doc.log = s.doc.log from
          (quiet_afterRestore other delta s).log]
      by_cases hother : other = marker
      · subst hother
        obtain ⟨hhere, hthere⟩ := hsettles delta rfl
        refine ⟨hstands, (hundone _).trans (h.within hhere _ hthere), ?_⟩
        intro _ q hq
        exact (hundone q).trans (h.within hhere q hq)
      · have hseat : (Entry.markerShift other delta).seatUndone marker advances seat = seat := by
          simp [Entry.seatUndone, Entry.markerUndone, hother]
        rw [hseat]
        refine ⟨?_, (hundone _).trans h.back, ?_⟩
        · rwa [Entry.markerUndone, if_neg hother] at hstands
        · intro hin q hq
          exact (hundone q).trans (h.within hin q hq)
  | propertyChange change =>
      refine bare hstands (Eq.trans ?_ h.back)
      show unwound marker advances ((Call.restoreProperty change).after s) _ = _
      simp only [Call.after]
      split
      · exact unwound_afterProperty _ _ _ _ s _
      · rfl
  | firstChange modtime =>
      refine bare hstands (Eq.trans ?_ h.back)
      show unwound marker advances ((Call.revisit modtime).after s) _ = _
      simp only [Call.after]
      split <;> rfl
  | pointMove position => exact bare hstands h.back
  | boundary => exact bare hstands h.back

end Unwinds

/--
After the entries of a unit were taken back on an empty log, what was recorded leads a marker
back, if the unit holds no replacement and so the marker kept its seat.
-/
theorem Chain.unwinds {c : Text × Seat}
    (h : Chain (fun e begins o a b => TextStep id e begins o a.1 b.1 ∧
      SeatStep marker advances e begins o a.2 b.2) (unit ++ rest) os (x, Seat.bare p) c)
    (hno : ∀ o ∈ os.take unit.length, o.what.isReplacement = false) (hs : Ready id x s)
    (hempty : s.doc.log.entries = []) (hstands : StandsAt id marker advances p s) :
    ∃ seat, Unwinds id marker advances p seat (unit.foldl (fun s e => e.undone s) s) := by
  have hbegun : Unwinds id marker advances p (Seat.bare p) s := by
    refine .bare hstands ?_
    unfold unwound
    rw [hempty, List.foldl_nil]
  obtain ⟨b, ⟨-, -, hunwinds⟩, -⟩ := h.foldl_undone_of_origins
    (fun a s => Ready id a.1 s ∧ Retraces id x s ∧ Unwinds id marker advances p a.2 s)
    (by
      intro e begins o a b s ho hstep hsim
      obtain ⟨hr, hseat⟩ := hstep
      obtain ⟨hready, hretraces, hunwinds⟩ := hsim
      obtain ⟨hsettles, hb⟩ := hseat.resolve_left fun hc => by simp [hno o ho] at hc
      rw [hb]
      exact ⟨ready_undone hready hr, hretraces.undone hready hr,
        hunwinds.undone hready hr hretraces.linked hsettles⟩)
    ⟨hs, Retraces.start hs hempty, hbegun⟩
  exact ⟨b.2, hunwinds⟩

end EditHistory
