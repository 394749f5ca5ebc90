/-
The first change of a clean document is in its log.

The log has marked the tick at which it last noted a first change, and a request that finds
the document clean notes none again at that tick.  So the mark stands for an entry, and as
long as the entry is there, every change of a clean document has its first change in the log.

A log drops entries, and the mark does not always go with them.  Switching the log off
forgets it.  Keeping the newest entries only, or none, does not, and neither does a
truncation: the next change of a document that is still clean is then recorded without a
first change.  That is the one exception, and it is said exactly when it occurs.

A log does not tell when its entries were recorded.  `Dated` says it for each of them, and
which have been dropped since the log was last switched off.  What recording puts on top of
the log is dated at the tick of what it was shown; it is shown anything, at any tick.
-/
import EditHistory.Proofs.Session.FirstChanges
import EditHistory.Proofs.Session.Refusals

namespace EditHistory

open Recording (Request)

/-! ### What a request leaves -/

namespace Recording

variable {v : View} {r r' : Recording} {pos start length : Nat}

/--
The request looks whether a first change is to be noted.  Changes of text do not while
points are not recorded, and neither does a replacement of what cannot be read.
-/
def Request.looks (v : View) (settings : Settings) : Request → Bool
  | .insertion .. | .deletion .. => !settings.inhibitPoint
  | .change start length => !settings.inhibitPoint && (v.read start (start + length)).isOk
  | .firstChange | .propertyChange .. => true
  | .boundary => false

/-- What the request makes of a recording whose log is switched on. -/
def Request.after (v : View) (r : Recording) : Request → Recording
  | .insertion start length => r.afterInsert v start length
  | .deletion start text withMarkers => r.afterDelete v start text withMarkers
  | .change start length =>
    match v.read start (start + length) with
    | .ok old => (r.afterDelete v start old false).afterInsert v start length
    | .error _ => r
  | .firstChange => r.noteFirstChange v
  | .propertyChange start length name old => r.afterPropertyChange v start length name old
  | .boundary => r.endUnit v

theorem Request.comesTo_after (request : Request) (v : View) (r : Recording)
    (hread : ∀ start length e, request = .change start length →
      v.read start (start + length) ≠ .error e) :
    ComesTo (request.call v) r (r.whenOn (request.after v r)) := by
  cases request with
  | insertion start length => exact comesTo_recordInsert start length v r
  | deletion start text withMarkers => exact comesTo_recordDelete start text withMarkers v r
  | change start length =>
      rw [after]
      cases hresult : v.read start (start + length) with
      | ok old => exact comesTo_recordChange_of_read hresult
      | error e => exact absurd hresult (hread start length e rfl)
  | firstChange => exact comesTo_whenEnabled fun _ => .modify _
  | propertyChange start length name old =>
      exact comesTo_recordPropertyChange start length name old v r
  | boundary =>
      have hsame : r.whenOn (r.endUnit v) = r.endUnit v := by
        unfold whenOn endUnit
        split <;> rfl
      rw [after, hsame]
      exact .modify _

/-- However the request ends, but for a fault, it ends there. -/
theorem Request.eq_after_of_endsAt {request : Request} (hends : EndsAt (request.call v) r r') :
    r' = r.whenOn (request.after v r) := by
  by_cases hread : ∃ start length e, request = .change start length ∧
      v.read start (start + length) = .error e
  · -- That the text cannot be read is found out before anything is recorded.
    obtain ⟨start, length, e, rfl, hread⟩ := hread
    have hkept : Maintains (fun s => s = r) (recordChange start length v) := by
      refine maintains_whenEnabled <| maintains_require fun _ => ?_
      rw [hread]
      exact Maintains.throw _
    rw [after, hread, whenOn, ite_self]
    exact hkept r r' hends rfl
  · exact ((request.comesTo_after v r fun start length e hrequest hresult =>
      hread ⟨start, length, e, hrequest, hresult⟩).eq_of_endsAt hends).2

/--
`r'` is `r` with what was recorded on top.  If it was looked for and is to be noted, the
oldest of that is a first change, and its tick is marked.
-/
structure Looked (looks : Bool) (v : View) (r r' : Recording) : Prop where
  grows : ∃ newer, (∀ e ∈ newer, e.IsOther) ∧
    Log.Grows (newer ++ if looks then firstChanges v r else []) r.log.entries r'.log.entries
  marked : r'.log.markedTick
    = if looks = true ∧ Unnoted v r then some v.ticks.modified else r.log.markedTick

/-- After a request that looked, there is nothing to note at this tick. -/
theorem Looked.not_unnoted (h : Looked true v r r') : ¬Unnoted v r' := by
  intro hunnoted
  have hmarked := h.marked
  by_cases hbefore : Unnoted v r
  · rw [if_pos ⟨rfl, hbefore⟩] at hmarked
    exact hunnoted.2 hmarked
  · rw [if_neg fun h => hbefore h.2] at hmarked
    exact hbefore ((unnoted_congr hmarked).mp hunnoted)

theorem markedTick_noteFirstChange_eq (v : View) (r : Recording) :
    (r.noteFirstChange v).log.markedTick
      = if Unnoted v r then some v.ticks.modified else r.log.markedTick := by
  by_cases h : Unnoted v r
  · rw [noteFirstChange_of_unnoted h, if_pos h]
  · rw [noteFirstChange_of_noted h, if_neg h]

theorem markedTick_notePoint_eq (v : View) (pos : Nat) (r : Recording) :
    (r.notePoint v pos).log.markedTick
      = if (!r.recorder.settings.inhibitPoint) = true ∧ Unnoted v r then some v.ticks.modified
        else r.log.markedTick := by
  have hbegun := markedTick_noteFirstChange_eq v (r.beginChange v)
  simp only [unnoted_congr (markedTick_beginChange v r), markedTick_beginChange] at hbegun
  unfold notePoint
  cases r.recorder.settings.inhibitPoint with
  | true => rfl
  | false =>
      simp only [Bool.false_eq_true, if_false, Bool.not_false, true_and]
      rw [← hbegun]
      split
      · split <;> rfl
      · rfl

/-- The preamble of a change that looks, or does not. -/
theorem preamble_eq_looked (v : View) (pos : Nat) (r : Recording) :
    ∃ newer : List Entry, (∀ e ∈ newer, e.IsOther) ∧ preamble v pos r
      = newer ++ if !r.recorder.settings.inhibitPoint then firstChanges v r else [] := by
  obtain ⟨newer, hother, hpreamble⟩ := preamble_eq v pos r
  refine ⟨newer, hother, ?_⟩
  rw [hpreamble]
  cases r.recorder.settings.inhibitPoint <;> rfl

theorem looked_afterInsert (v : View) (start length : Nat) (r : Recording) :
    Looked (!r.recorder.settings.inhibitPoint) v r (r.afterInsert v start length) := by
  obtain ⟨newer, hother, hpreamble⟩ := preamble_eq_looked v start r
  refine ⟨?_, ?_⟩
  · rcases grows_afterInsert v start length r with hgrows | ⟨hnil, hgrows⟩
    · rw [hpreamble, ← List.cons_append] at hgrows
      exact ⟨_, List.forall_mem_cons.mpr ⟨(fun _ h => by cases h), hother⟩, hgrows⟩
    · rw [hpreamble] at hnil
      rw [(List.append_eq_nil_iff.mp hnil).2]
      exact ⟨[], nofun, hgrows⟩
  · rw [← markedTick_notePoint_eq v start r]
    exact markedTick_extendInsertion _ _ _

theorem looked_afterDelete (v : View) (start : Nat) (text : Text) (withMarkers : Bool)
    (r : Recording) :
    Looked (!r.recorder.settings.inhibitPoint) v r (r.afterDelete v start text withMarkers) := by
  have hgrows := (adds_afterDelete v start text withMarkers r).grows
  obtain ⟨newer, hother, hpreamble⟩ :=
    preamble_eq_looked v (undonePoint v start (start + text.length)) r
  rw [hpreamble, ← List.append_assoc, ← List.cons_append] at hgrows
  refine ⟨⟨_, List.forall_mem_cons.mpr ⟨(fun _ h => by cases h),
    List.forall_mem_append.mpr ⟨fun e he => ?_, hother⟩⟩, hgrows⟩, ?_⟩
  · obtain ⟨marker, delta, rfl⟩ := mem_shifts he
    exact nofun
  · rw [markedTick_afterDelete, markedTick_notePoint_eq]

/-- The insertion after a deletion has nothing left to look for. -/
theorem looked_afterDelete_afterInsert (v : View) (start : Nat) (old : Text) (length : Nat)
    (r : Recording) :
    Looked (!r.recorder.settings.inhibitPoint) v r
      ((r.afterDelete v start old false).afterInsert v start length) := by
  have hdelete := looked_afterDelete v start old false r
  have hadds := adds_afterDelete v start old false r
  refine ⟨?_, ?_⟩
  · obtain ⟨newer, hother, hpreamble⟩ :=
      preamble_eq_looked v (undonePoint v start (start + old.length)) r
    have hgrows := (hadds.trans (adds_afterInsert_afterDelete v start old false start length r)).grows
    rw [hpreamble, ← List.append_assoc, ← List.cons_append, ← List.append_assoc] at hgrows
    refine ⟨_, fun e he => ?_, hgrows⟩
    simp only [List.mem_append, List.mem_cons, List.not_mem_nil, or_false] at he
    rcases he with rfl | rfl | hshift | he
    · exact nofun
    · exact nofun
    · obtain ⟨marker, delta, rfl⟩ := mem_shifts hshift
      exact nofun
    · exact hother e he
  · have hsettled : ¬((!(r.afterDelete v start old false).recorder.settings.inhibitPoint) = true ∧
        Unnoted v (r.afterDelete v start old false)) := by
      rintro ⟨hlooks, hunnoted⟩
      rw [hadds.keeps.settings] at hlooks
      rw [hlooks] at hdelete
      exact hdelete.not_unnoted hunnoted
    rw [(looked_afterInsert v start length _).marked, if_neg hsettled, hdelete.marked]

/-- Every request looks, or does not, as it is said to. -/
theorem Request.looked_after (request : Request) (v : View) (r : Recording) :
    Looked (request.looks v r.recorder.settings) v r (request.after v r) := by
  cases request with
  | insertion start length => exact looked_afterInsert v start length r
  | deletion start text withMarkers => exact looked_afterDelete v start text withMarkers r
  | change start length =>
      rw [looks, after]
      cases v.read start (start + length) with
      | ok old =>
          show Looked (_ && true) v r _
          rw [Bool.and_true]
          exact looked_afterDelete_afterInsert v start old length r
      | error e =>
          show Looked (_ && false) v r r
          rw [Bool.and_false]
          exact ⟨⟨[], nofun, .pushed [] _⟩, rfl⟩
  | firstChange =>
      refine ⟨⟨[], nofun, (adds_noteFirstChange v r).grows⟩, ?_⟩
      rw [after, markedTick_noteFirstChange_eq]
      simp [looks]
  | propertyChange start length name old =>
      refine ⟨⟨[_], List.forall_mem_singleton.mpr (fun _ h => by cases h),
        (adds_afterPropertyChange v start length name old r).grows⟩, ?_⟩
      show ((r.beginChange v).noteFirstChange v).log.markedTick = _
      rw [markedTick_noteFirstChange_eq, markedTick_beginChange]
      simp [looks, unnoted_congr (markedTick_beginChange v r)]
  | boundary =>
      refine ⟨?_, (markedTick_endUnit v r).trans rfl⟩
      rw [after]
      cases hon : r.log.disabled with
      | true =>
          rw [endUnit, if_pos hon]
          exact ⟨[], nofun, .pushed [] _⟩
      | false =>
          rw [entries_endUnit v hon]
          refine ⟨closing r, fun e he _ h => ?_, (List.append_nil _).symm ▸ .pushed _ _⟩
          rw [mem_closing he] at h
          cases h

end Recording

/-! ### Dated logs -/

namespace Log.Grows

variable {pushed old new : List Entry} {ticks : List Nat} {tick tick' : Nat} {modtime : Option Int}

theorem length_eq (h : Grows pushed old new) : new.length = pushed.length + old.length := by
  cases h with
  | pushed => exact List.length_append
  | lengthened first last stop older => exact (Nat.zero_add _).symm

theorem mem_zip_replicate {e : Entry} :
    (e, tick') ∈ pushed.zip (List.replicate pushed.length tick) ↔ e ∈ pushed ∧ tick' = tick := by
  induction pushed with
  | nil => simp
  | cons newest older ih =>
      rw [List.length_cons, List.replicate_succ, List.zip_cons_cons, List.mem_cons, ih,
        List.mem_cons, Prod.mk.injEq, or_and_right]

/-- If what was pushed is dated at a tick, the first changes in it are the new ones. -/
theorem mem_zip (h : Grows pushed old new) (hticks : ticks.length = old.length) :
    (Entry.firstChange modtime, tick')
        ∈ new.zip (List.replicate (new.length - old.length) tick ++ ticks) ↔
      (Entry.firstChange modtime ∈ pushed ∧ tick' = tick) ∨
        (Entry.firstChange modtime, tick') ∈ old.zip ticks := by
  cases h with
  | pushed =>
      rw [List.length_append, Nat.add_sub_cancel,
        List.zip_append (List.length_replicate (a := tick)).symm, List.mem_append]
      exact or_congr_left mem_zip_replicate
  | lengthened first last stop older =>
      obtain ⟨head, rest, rfl⟩ := List.exists_cons_of_length_eq_add_one hticks
      simp

end Log.Grows

/-- A log with the ticks at which its entries were recorded. -/
structure Dated where
  log : Log := {}
  /-- The tick of each entry, newest first. -/
  ticks : List Nat := []
  /-- The entries that were dropped since the log was last switched off, with their ticks. -/
  dropped : List (Entry × Nat) := []

namespace Dated

variable {s t : Dated} {tick : Nat}

/-- The entries with their ticks. -/
def entries (s : Dated) : List (Entry × Nat) := s.log.entries.zip s.ticks

theorem entries_take (count : Nat) (s : Dated) :
    s.entries.take count = (s.log.entries.take count).zip (s.ticks.take count) := by
  unfold entries
  rw [List.zip_eq_zipWith, List.take_zipWith]
  rfl

/-- A first change that was recorded at the tick is in the log. -/
def Has (tick : Nat) (s : Dated) : Prop := ∃ modtime, (.firstChange modtime, tick) ∈ s.entries

/-- A first change that was recorded at the tick was dropped. -/
def Lost (tick : Nat) (s : Dated) : Prop := ∃ modtime, (.firstChange modtime, tick) ∈ s.dropped

/-- The tick is marked, but there is no first change of it in the log. -/
def Stale (tick : Nat) (s : Dated) : Prop := s.log.markedTick = some tick ∧ ¬s.Has tick

/-- The log after a recording at the tick: it is `log`, with new entries on top. -/
def recorded (tick : Nat) (log : Log) (s : Dated) : Dated :=
  { s with log, ticks := List.replicate (log.length - s.log.length) tick ++ s.ticks }

/-- `s` turns into the other dated log by the operations of logs. -/
inductive Upkept (s : Dated) : Dated → Prop
  | refl : Upkept s s
  | retain {t : Dated} (count : Nat) (h : Upkept s t) : Upkept s
      { log := t.log.retain count, ticks := t.ticks.take count,
        dropped := t.entries.drop count ++ t.dropped }
  | clear {t : Dated} (h : Upkept s t) : Upkept s
      { log := t.log.clear, ticks := [], dropped := t.entries ++ t.dropped }
  /-- With the entries, what was dropped before is forgotten. -/
  | disable {t : Dated} (h : Upkept s t) : Upkept s { log := t.log.disable }
  | enable {t : Dated} (h : Upkept s t) : Upkept s { t with log := t.log.enable }
  | rearm {t : Dated} (h : Upkept s t) : Upkept s { t with log := t.log.rearm }

/-- What can become of a dated log in one step. -/
inductive Step (s : Dated) : Dated → Prop
  /-- A document, whatever it shows of itself, makes a request that does not end the run. -/
  | record (recorder : Recorder) (v : View) (request : Request)
      (h : faults (request.call v { recorder, log := s.log }) = false) :
      Step s (s.recorded v.ticks.modified
        (finalState (request.call v { recorder, log := s.log })).log)
  /-- The log is used by itself, as it is by a truncation too. -/
  | upkeep {t : Dated} (h : s.Upkept t) : Step s t

/-- The dated log can be reached from an empty log. -/
inductive Reached : Dated → Prop
  | empty : Reached {}
  | step {s t : Dated} (h : Reached s) (hstep : s.Step t) : Reached t

/-! ### Every log can be dated -/

theorem exists_upkept {log : Log} (h : s.log.Upkept log) : ∃ t, s.Upkept t ∧ t.log = log := by
  induction h with
  | refl => exact ⟨s, .refl, rfl⟩
  | retain count _ ih =>
      obtain ⟨t, ht, rfl⟩ := ih
      exact ⟨_, .retain count ht, rfl⟩
  | clear _ ih =>
      obtain ⟨t, ht, rfl⟩ := ih
      exact ⟨_, .clear ht, rfl⟩
  | disable _ ih =>
      obtain ⟨t, ht, rfl⟩ := ih
      exact ⟨_, .disable ht, rfl⟩
  | enable _ ih =>
      obtain ⟨t, ht, rfl⟩ := ih
      exact ⟨_, .enable ht, rfl⟩
  | rearm _ ih =>
      obtain ⟨t, ht, rfl⟩ := ih
      exact ⟨_, .rearm ht, rfl⟩

/-- The log is that of a dated log that can be reached. -/
def Dates (log : Log) : Prop := ∃ s : Dated, s.Reached ∧ s.log = log

theorem Dates.upkept {log log' : Log} (h : Dates log) (hkept : log.Upkept log') : Dates log' := by
  obtain ⟨s, hs, rfl⟩ := h
  obtain ⟨t, ht, rfl⟩ := exists_upkept hkept
  exact ⟨t, hs.step (.upkeep ht), rfl⟩

/-- Whatever documents request, and whatever truncates or uses logs: they can be dated. -/
theorem dates_logs {l : Ledger} (h : l.Reached) (id : DocId) : Dates (l.logs id) := by
  induction h generalizing id with
  | empty recorder depth => exact ⟨{}, .empty, rfl⟩
  | step _ hstep ih =>
      cases hstep with
      | record target v request hfault =>
          refine Ledger.forall_setLog ih ?_ id
          obtain ⟨s, hs, hlog⟩ := ih target
          unfold Ledger.recording at hfault ⊢
          rw [← hlog] at hfault ⊢
          exact ⟨_, hs.step (.record _ v request hfault), rfl⟩
      | truncate target =>
          exact Ledger.forall_setLog ih ((ih target).upkept (upkept_truncateUnder _ _ _ _)) id
      | upkeep target hkept => exact Ledger.forall_setLog ih ((ih target).upkept hkept) id
      | copy target source => exact Ledger.forall_setLog ih (ih source) id
      | start target => exact Ledger.forall_setLog ih ⟨{}, .empty, rfl⟩ id
      | configure recorder depth => exact ih id

/-! ### What a mark stands for -/

/-- Every entry has a tick, and a mark stands for a first change, in the log or dropped. -/
structure Sound (s : Dated) : Prop where
  aligned : s.ticks.length = s.log.entries.length
  marked : ∀ tick, s.log.markedTick = some tick → s.Has tick ∨ s.Lost tick

theorem has_recorded {pushed : List Entry} {log : Log} {tick' : Nat}
    (haligned : s.ticks.length = s.log.entries.length)
    (hgrows : Log.Grows pushed s.log.entries log.entries) :
    (s.recorded tick log).Has tick' ↔
      ((∃ modtime, .firstChange modtime ∈ pushed) ∧ tick' = tick) ∨ s.Has tick' := by
  unfold Has
  rw [← exists_and_right, ← exists_or]
  exact exists_congr fun modtime => hgrows.mem_zip haligned

theorem recorded_self (tick : Nat) (s : Dated) : s.recorded tick s.log = s := by
  unfold recorded
  rw [Nat.sub_self]
  rfl

/-- First changes are pushed if they are looked for and are to be noted. -/
theorem has_recorded_of_looked {looks : Bool} {v : View} {recorder : Recorder} {r : Recording}
    (haligned : s.ticks.length = s.log.entries.length)
    (h : Recording.Looked looks v { recorder, log := s.log } r) (tick : Nat) :
    (s.recorded v.ticks.modified r.log).Has tick ↔
      (looks = true ∧ Recording.Unnoted v { recorder, log := s.log }) ∧ tick = v.ticks.modified ∨
        s.Has tick := by
  obtain ⟨newer, hother, hgrows⟩ := h.grows
  rw [has_recorded haligned hgrows]
  refine or_congr_left (and_congr_left' ⟨?_, fun hnoted => ⟨v.modtime, ?_⟩⟩)
  · rintro ⟨modtime, hmem⟩
    rcases List.mem_append.mp hmem with hmem | hmem
    · exact absurd rfl (hother _ hmem modtime)
    · cases looks with
      | false => cases hmem
      | true =>
          refine ⟨rfl, Classical.byContradiction fun hnoted => ?_⟩
          rw [if_pos rfl, Recording.firstChanges, if_neg hnoted] at hmem
          cases hmem
  · rw [if_pos hnoted.1, Recording.firstChanges, if_pos hnoted.2]
    exact List.mem_append_right _ List.mem_cons_self

/-! ### Runs -/

namespace Sound

/-- A recording dates what it adds, and marks a tick only with a first change of that tick. -/
theorem recorded {looks : Bool} {v : View} {recorder : Recorder} {r : Recording} (hs : s.Sound)
    (h : Recording.Looked looks v { recorder, log := s.log } r) :
    (s.recorded v.ticks.modified r.log).Sound := by
  have hhas := has_recorded_of_looked hs.aligned h
  refine ⟨?_, fun tick hmarked => ?_⟩
  · obtain ⟨newer, -, hgrows⟩ := h.grows
    have hle : s.log.entries.length ≤ r.log.entries.length :=
      hgrows.length_eq ▸ Nat.le_add_left _ _
    show (List.replicate _ _ ++ s.ticks).length = r.log.entries.length
    rw [List.length_append, List.length_replicate, hs.aligned]
    exact Nat.sub_add_cancel hle
  · have hmark : r.log.markedTick = some tick := hmarked
    rw [h.marked] at hmark
    -- Either this recording marked the tick, with a first change, or the mark was there before.
    by_cases hnoted : looks = true ∧ Recording.Unnoted v { recorder, log := s.log }
    · rw [if_pos hnoted] at hmark
      exact Or.inl ((hhas tick).mpr (Or.inl ⟨hnoted, (Option.some.inj hmark).symm⟩))
    · rw [if_neg hnoted] at hmark
      exact (hs.marked tick hmark).imp_left fun h => (hhas tick).mpr (Or.inr h)

/-- What is no longer in the log has been dropped, or the mark is gone too. -/
theorem upkept (hs : s.Sound) (h : s.Upkept t) : t.Sound := by
  induction h with
  | refl => exact hs
  | @retain t count _ ih =>
      refine ⟨?_, fun tick hmarked => ?_⟩
      · show (t.ticks.take count).length = (t.log.entries.take count).length
        rw [List.length_take, List.length_take, ih.aligned]
      · -- The first change that the mark stands for is kept, dropped now, or dropped before.
        rcases ih.marked tick hmarked with ⟨modtime, h⟩ | ⟨modtime, h⟩
        · rw [← List.take_append_drop count t.entries] at h
          rcases List.mem_append.mp h with h | h
          · rw [entries_take] at h
            exact Or.inl ⟨modtime, h⟩
          · exact Or.inr ⟨modtime, List.mem_append_left _ h⟩
        · exact Or.inr ⟨modtime, List.mem_append_right _ h⟩
  | clear _ ih =>
      refine ⟨rfl, fun tick hmarked => Or.inr ?_⟩
      rcases ih.marked tick hmarked with ⟨modtime, h⟩ | ⟨modtime, h⟩
      · exact ⟨modtime, List.mem_append_left _ h⟩
      · exact ⟨modtime, List.mem_append_right _ h⟩
  | disable _ _ => exact ⟨rfl, nofun⟩
  | enable _ ih => exact ⟨ih.aligned, ih.marked⟩
  | rearm _ ih => exact ⟨ih.aligned, ih.marked⟩

theorem step (hs : s.Sound) (hstep : s.Step t) : t.Sound := by
  cases hstep with
  | upkeep h => exact hs.upkept h
  | record recorder v request hfault =>
      have hends := Request.eq_after_of_endsAt (EndsAt.of_not_faults hfault)
      rw [hends, Recording.whenOn]
      split
      · rwa [recorded_self]
      · exact hs.recorded (request.looked_after v { recorder, log := s.log })

end Sound

theorem Reached.sound (h : Reached s) : s.Sound := by
  induction h with
  | empty => exact ⟨rfl, nofun⟩
  | step _ hstep ih => exact ih.step hstep

/--
**Every change of a clean document has its first change in the log.**  Let a log be recorded
into, with anything shown, and be used by itself and truncated in any way.  If it is on, and
a request that looks for a first change finds the document clean, then the request succeeds
or ends in a fault; and after it the log has a first change that was recorded at the tick of
the document, unless there was none before although the tick is marked.  In that case it was
dropped since the log was last switched off.
-/
theorem first_change_present {s : Dated} {v : View} {request : Request} {recorder : Recorder}
    (h : s.Reached) (hon : s.log.disabled = false) (hclean : v.ticks.Clean)
    (hlooks : request.looks v recorder.settings = true)
    (hfault : faults (request.call v { recorder, log := s.log }) = false) :
    ∃ r, request.call v { recorder, log := s.log } = .ok () r ∧
      ((s.recorded v.ticks.modified r.log).Has v.ticks.modified ↔ ¬s.Stale v.ticks.modified) ∧
      (s.Stale v.ticks.modified → s.Lost v.ticks.modified) := by
  have hlooked := request.looked_after v { recorder, log := s.log }
  have hread : ∀ start length e, request = .change start length →
      v.read start (start + length) ≠ .error e := by
    rintro start length e rfl hread
    rw [Request.looks, hread] at hlooks
    simp [Except.isOk, Except.toBool] at hlooks
  have hcomes := request.comesTo_after v { recorder, log := s.log } hread
  rw [Recording.whenOn, if_neg (by simp [hon])] at hcomes
  refine ⟨_, (hcomes.eq_of_endsAt (EndsAt.of_not_faults hfault)).1, ?_, ?_⟩
  · rw [has_recorded_of_looked h.sound.aligned hlooked]
    unfold Stale Recording.Unnoted
    simp only [hlooks, hclean, true_and, and_true]
    rw [Classical.not_and_iff_not_or_not, Classical.not_not]
  · rintro ⟨hmarked, hgone⟩
    exact (h.sound.marked _ hmarked).resolve_left hgone

/-- A log that noted a first change, and was switched off and on again. -/
def switched : Dated :=
  let noted := (Recording.noteFirstChange (Ledger.abcView 0) { recorder := {}, log := {} }).log
  { log := noted.disable.enable }

/-- Switching the log off forgets the mark, so the insertion gets a first change again. -/
theorem first_change_present_switched :
    ∃ r, Request.call (.insertion 0 1) (Ledger.abcView 0)
        { recorder := {}, log := switched.log } = .ok () r ∧
      r.log.entries = [.insertion 0 1, .firstChange none] ∧
      (switched.recorded 0 r.log).Has 0 := by
  have hreached : switched.Reached :=
    .step (.step .empty (.record {} (Ledger.abcView 0) .firstChange rfl))
      (.upkeep (.enable (.disable .refl)))
  obtain ⟨r, hrun, hhas, -⟩ := @first_change_present switched (Ledger.abcView 0) (.insertion 0 1)
    {} hreached rfl (Nat.le_refl 0) rfl rfl
  refine ⟨r, hrun, ?_, hhas.mpr nofun⟩
  cases hrun
  rfl

end Dated

/--
A session in which a clean document is changed while the log is on and points are recorded,
and no first change is in its log: the log was cleared after one was noted.
-/
theorem cleared_first_change_missing :
    ∃ now, ((Workspace.ofText ['a', 'b', 'c']).later
        [.sheet ⟨0⟩ (.recordInsert 0 1), .sheet ⟨0⟩ .clearLog,
          .sheet ⟨0⟩ .recordFirstChange]).moment? ⟨0⟩ = some now ∧
      now.doc.ticks.Clean ∧ now.doc.log.disabled = false ∧
      now.recorder.settings.inhibitPoint = false ∧
      now.doc.log.entries = [.insertion 0 1] ∧
      ∀ modtime, .firstChange modtime ∉ now.doc.log.entries := by
  refine ⟨_, rfl, Nat.le_refl 0, rfl, rfl, rfl, fun modtime h => ?_⟩
  cases List.mem_singleton.mp h

end EditHistory
