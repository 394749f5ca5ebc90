/-
What each recording call puts in the log.

Recording only ever adds on top of a log, with one exception: an insertion that
goes on where the newest entry ended makes that entry longer.  `Adds` says the
first, together with what recording leaves alone, and composes, so the entries of
a call are read off piece by piece: the preamble that `notePoint` puts in front,
the displacements of the markers, the entry of the change itself.

The preamble is empty while point recording is inhibited.  Otherwise its oldest
entry, if the document was unmodified and that was not noted at this tick, is a
first-change entry; this is what lets an undo find its way back to a saved text.
-/
import EditHistory.Recorder.Recording

/-! ### Running -/

namespace EditHistory

section Running

variable {ε σ α β : Type}

@[simp] theorem get_bind (f : σ → EStateM ε σ α) (s : σ) : (get >>= f) s = f s s := rfl

@[simp] theorem throw_bind (e : ε) (f : β → EStateM ε σ α) (s : σ) :
    (throw e >>= f) s = .error e s := rfl

@[simp] theorem throw_run (e : ε) (s : σ) : (throw e : EStateM ε σ α) s = .error e s := rfl

@[simp] theorem pure_run (a : α) (s : σ) : (pure a : EStateM ε σ α) s = .ok a s := rfl

end Running

end EditHistory

namespace EditHistory.Recording

variable {v : View} {pos : Nat} {s s₁ s₂ : Recording} {new newer : List Entry}

/-- What no recording of a change alters, whatever it adds. -/
structure Keeps (s₁ s₂ : Recording) : Prop where
  disabled : s₂.log.disabled = s₁.log.disabled
  settings : s₂.recorder.settings = s₁.recorder.settings
  lastBoundary : s₂.recorder.lastBoundary = s₁.recorder.lastBoundary
  hook : s₂.recorder.hook = s₁.recorder.hook

theorem Keeps.refl (s : Recording) : Keeps s s := ⟨rfl, rfl, rfl, rfl⟩

theorem Keeps.trans {s₃ : Recording} (h₁ : Keeps s₁ s₂) (h₂ : Keeps s₂ s₃) : Keeps s₁ s₃ where
  disabled := h₂.disabled.trans h₁.disabled
  settings := h₂.settings.trans h₁.settings
  lastBoundary := h₂.lastBoundary.trans h₁.lastBoundary
  hook := h₂.hook.trans h₁.hook

/-- `s₂` is `s₁` with the entries `new` on top of its log. -/
structure Adds (new : List Entry) (s₁ s₂ : Recording) : Prop where
  entries : s₂.log.entries = new ++ s₁.log.entries
  keeps : Keeps s₁ s₂

namespace Adds

theorem refl (s : Recording) : Adds [] s s := ⟨rfl, Keeps.refl s⟩

theorem trans {s₃ : Recording} (h₁ : Adds new s₁ s₂) (h₂ : Adds newer s₂ s₃) :
    Adds (newer ++ new) s₁ s₃ where
  entries := by rw [h₂.entries, h₁.entries, List.append_assoc]
  keeps := h₁.keeps.trans h₂.keeps

theorem push (e : Entry) (s : Recording) : Adds [e] s (s.push e) := ⟨rfl, ⟨rfl, rfl, rfl, rfl⟩⟩

/-- Pushing entries one after the other puts the last of them on top. -/
theorem foldl_push {α : Type} (f : α → Entry) (l : List α) :
    ∀ s : Recording, Adds (l.map f).reverse s (l.foldl (fun s a => s.push (f a)) s) := by
  induction l with
  | nil => intro s; exact refl s
  | cons a rest ih =>
      intro s
      have h := (push (f a) s).trans (ih (s.push (f a)))
      rwa [List.map_cons, List.reverse_cons, List.foldl_cons]

end Adds

/-! ### The preamble of a change -/

theorem adds_beginChange (v : View) (s : Recording) : Adds [] s (s.beginChange v) := by
  unfold beginChange Recorder.notify
  split
  · exact ⟨rfl, ⟨rfl, rfl, rfl, rfl⟩⟩
  · dsimp only
    split <;> exact ⟨rfl, ⟨rfl, rfl, rfl, rfl⟩⟩

@[simp] theorem markedTick_beginChange (v : View) (s : Recording) :
    (s.beginChange v).log.markedTick = s.log.markedTick := by
  unfold beginChange
  split <;> rfl

/-- Whether a change of the document as it stands gets a first-change entry. -/
def Unnoted (v : View) (s : Recording) : Prop :=
  v.ticks.Clean ∧ s.log.markedTick ≠ some v.ticks.modified

instance (v : View) (s : Recording) : Decidable (Unnoted v s) :=
  inferInstanceAs (Decidable (_ ∧ _))

theorem unnoted_congr (h : s₂.log.markedTick = s₁.log.markedTick) :
    Unnoted v s₂ ↔ Unnoted v s₁ := by
  unfold Unnoted
  rw [h]

/-- The first-change entry that a change gets, if any. -/
def firstChanges (v : View) (s : Recording) : List Entry :=
  if Unnoted v s then [.firstChange v.modtime] else []

theorem mem_firstChanges {e : Entry} (h : e ∈ firstChanges v s) : e = .firstChange v.modtime := by
  unfold firstChanges at h
  split at h
  · exact List.mem_singleton.mp h
  · cases h

theorem firstChanges_congr (h : s₂.log.markedTick = s₁.log.markedTick) :
    firstChanges v s₂ = firstChanges v s₁ := by
  unfold firstChanges
  simp only [unnoted_congr h]

theorem noteFirstChange_of_unnoted (h : Unnoted v s) :
    s.noteFirstChange v = { s.push (.firstChange v.modtime) with
      log := { (s.push (.firstChange v.modtime)).log with
        markedTick := some v.ticks.modified } } :=
  if_pos h

theorem noteFirstChange_of_noted (h : ¬Unnoted v s) : s.noteFirstChange v = s := if_neg h

theorem adds_noteFirstChange (v : View) (s : Recording) :
    Adds (firstChanges v s) s (s.noteFirstChange v) := by
  unfold firstChanges
  by_cases h : Unnoted v s
  · rw [if_pos h, noteFirstChange_of_unnoted h]
    exact ⟨rfl, ⟨rfl, rfl, rfl, rfl⟩⟩
  · rw [if_neg h, noteFirstChange_of_noted h]
    exact Adds.refl s

/-- Once it was seen to, there is nothing left to note at this tick. -/
theorem not_unnoted_noteFirstChange (v : View) (s : Recording) :
    ¬Unnoted v (s.noteFirstChange v) := by
  intro h
  by_cases hs : Unnoted v s
  · refine h.2 ?_
    rw [noteFirstChange_of_unnoted hs]
  · rw [noteFirstChange_of_noted hs] at h
    exact hs h

theorem markedTick_noteFirstChange (v : View) (s : Recording) :
    (s.noteFirstChange v).log.markedTick = s.log.markedTick ∨
      (s.noteFirstChange v).log.markedTick = some v.ticks.modified := by
  unfold noteFirstChange
  split
  · exact Or.inr rfl
  · exact Or.inl rfl

/-- The cursor's place at the last boundary, if the change opens a unit away from it. -/
def pointMoves (v : View) (pos : Nat) (s : Recording) : List Entry :=
  match s.log.atBoundary, s.recorder.positionIn v.doc with
  | true, some position => if position = pos then [] else [.pointMove position]
  | _, _ => []

/-- The entries that go before the entry of a change at `pos`, newest first. -/
def preamble (v : View) (pos : Nat) (s : Recording) : List Entry :=
  if s.recorder.settings.inhibitPoint then [] else pointMoves v pos s ++ firstChanges v s

theorem atBoundary_congr (h : s₂.log.entries = s₁.log.entries) :
    s₂.log.atBoundary = s₁.log.atBoundary := by
  unfold Log.atBoundary Log.head?
  rw [h]

theorem positionIn_congr (h : s₂.recorder.lastBoundary = s₁.recorder.lastBoundary) (doc : DocId) :
    s₂.recorder.positionIn doc = s₁.recorder.positionIn doc := by
  unfold Recorder.positionIn
  rw [h]

theorem adds_notePoint (v : View) (pos : Nat) (s : Recording) :
    Adds (preamble v pos s) s (s.notePoint v pos) := by
  unfold preamble
  by_cases hin : s.recorder.settings.inhibitPoint = true
  · rw [if_pos hin, notePoint, if_pos hin]
    exact Adds.refl s
  rw [if_neg hin, notePoint, if_neg hin]
  have hbegun := adds_beginChange v s
  have hfirst : firstChanges v (s.beginChange v) = firstChanges v s :=
    firstChanges_congr (markedTick_beginChange v s)
  have hnoted : Adds (firstChanges v s) s ((s.beginChange v).noteFirstChange v) := by
    have h := hbegun.trans (adds_noteFirstChange v (s.beginChange v))
    rwa [hfirst, List.append_nil] at h
  have hboundary : (s.beginChange v).log.atBoundary = s.log.atBoundary :=
    atBoundary_congr hbegun.entries
  have hplace : ((s.beginChange v).noteFirstChange v).recorder.positionIn v.doc
      = s.recorder.positionIn v.doc := positionIn_congr hnoted.keeps.lastBoundary v.doc
  simp only [pointMoves, hboundary, hplace]
  cases s.log.atBoundary with
  | false => exact hnoted
  | true =>
      cases s.recorder.positionIn v.doc with
      | none => exact hnoted
      | some position =>
          dsimp only
          split
          · exact hnoted
          · exact hnoted.trans (Adds.push _ _)

theorem mem_preamble {e : Entry} (h : e ∈ preamble v pos s) :
    e = .firstChange v.modtime ∨ ∃ position, e = .pointMove position := by
  unfold preamble at h
  split at h
  · simp at h
  · rcases List.mem_append.mp h with h | h
    · unfold pointMoves at h
      split at h
      · split at h
        · simp at h
        · exact Or.inr ⟨_, List.mem_singleton.mp h⟩
      · simp at h
    · exact Or.inl (mem_firstChanges h)

/-- The preamble ends no unit. -/
theorem isBoundary_of_mem_preamble {e : Entry} (h : e ∈ preamble v pos s) :
    e.isBoundary = false := by
  rcases mem_preamble h with rfl | ⟨position, rfl⟩ <;> rfl

/-- After a change was prepared, a further one has no preamble of its own. -/
theorem firstChanges_notePoint (hin : s.recorder.settings.inhibitPoint = false) :
    firstChanges v (s.notePoint v pos) = [] := by
  have hnoted := not_unnoted_noteFirstChange v (s.beginChange v)
  have hmark : (s.notePoint v pos).log.markedTick
      = ((s.beginChange v).noteFirstChange v).log.markedTick := by
    rw [notePoint, if_neg (by simp [hin])]
    dsimp only
    split
    · split <;> rfl
    · rfl
  unfold firstChanges
  rw [if_neg (by rwa [unnoted_congr hmark])]

theorem markedTick_notePoint (v : View) (pos : Nat) (s : Recording) :
    (s.notePoint v pos).log.markedTick = s.log.markedTick ∨
      (s.notePoint v pos).log.markedTick = some v.ticks.modified := by
  have h := markedTick_noteFirstChange v (s.beginChange v)
  rw [markedTick_beginChange] at h
  unfold notePoint
  split
  · exact Or.inl rfl
  · dsimp only
    split
    · split <;> exact h
    · exact h

/-! ### The calls

A recording call either ends in an overflow or leaves a recording that is a
function of what it found; the functions are named after the calls.
-/

/-- The recording after an insertion of `length` characters at `start` was recorded. -/
def afterInsert (v : View) (start length : Nat) (s : Recording) : Recording :=
  (s.notePoint v start).extendInsertion start (start + length)

theorem whenEnabled_on {call : RecordM Unit} (hon : s.log.disabled = false) :
    whenEnabled call s = call s := by
  simp [whenEnabled, hon]

theorem whenEnabled_off {call : RecordM Unit} (hoff : s.log.disabled = true) :
    whenEnabled call s = .ok () s := by
  simp [whenEnabled, hoff]

theorem require_bind {α : Type} {p : Prop} [Decidable p] (f : Unit → RecordM α) (s : Recording) :
    (require p >>= f) s = if p then f () s else .error (.fault .overflow) s := by
  by_cases h : p <;> simp [require, h]

theorem recordInsert_eq (start length : Nat) (v : View) (hon : s.log.disabled = false) :
    recordInsert start length v s =
      if Offset.Fits (start + length) then .ok () (s.afterInsert v start length)
      else .error (.fault .overflow) s := by
  unfold recordInsert
  rw [whenEnabled_on hon, require_bind]
  rfl

/-- The offset of a deletion's entry: negative if the cursor stands behind the deleted text. -/
def signedOffset (v : View) (start stop : Nat) : Int :=
  if v.point = stop then -Offset.toSigned start else Offset.toSigned start

/-- Where undoing a deletion puts the cursor. -/
def undonePoint (v : View) (start stop : Nat) : Nat := if v.point = stop then v.point else start

/-- The displacements that a deletion records, in the order of the markers. -/
def moved (v : View) (start stop : Nat) (withMarkers : Bool) : List (MarkerId × Int) :=
  if withMarkers then displacements start stop v.markers else []

/-- The entries for the markers that a deletion displaces, newest first. -/
def shifts (v : View) (start stop : Nat) (withMarkers : Bool) : List Entry :=
  (((moved v start stop withMarkers).filter (·.2 ≠ 0)).map
    fun (id, delta) => Entry.markerShift id delta).reverse

theorem mem_shifts {e : Entry} {start stop : Nat} {withMarkers : Bool}
    (h : e ∈ shifts v start stop withMarkers) : ∃ id delta, e = .markerShift id delta := by
  obtain ⟨⟨id, delta⟩, -, rfl⟩ := List.mem_map.mp (List.mem_reverse.mp h)
  exact ⟨id, delta, rfl⟩

/-- The recording after a deletion was recorded. -/
def afterDelete (v : View) (start : Nat) (text : Text) (withMarkers : Bool) (s : Recording) :
    Recording :=
  let stop := start + text.length
  let noted := s.notePoint v (undonePoint v start stop)
  let begun := if withMarkers then noted.beginChange v else noted
  let shifted := ((moved v start stop withMarkers).filter (·.2 ≠ 0)).foldl
    (fun s (id, delta) => s.push (.markerShift id delta)) begun
  shifted.push (.deletion text (signedOffset v start stop))

theorem fitsSigned_moved {start stop : Nat} (hstop : stop < 0x8000000000000000)
    {withMarkers : Bool} : ∀ m ∈ moved v start stop withMarkers, Offset.FitsSigned m.2 := by
  intro m hm
  unfold moved at hm
  split at hm
  · unfold displacements at hm
    obtain ⟨⟨id, marker⟩, hmem, rfl⟩ := List.mem_map.mp hm
    obtain ⟨-, hin⟩ := List.mem_filter.mp hmem
    simp only [decide_eq_true_eq] at hin
    have hsettled : (if marker.advances then stop else start) < 0x8000000000000000 := by
      split <;> omega
    show Offset.FitsSigned (displacement start stop marker)
    unfold displacement
    rw [Offset.toSigned_of_lt hsettled, Offset.toSigned_of_lt (by omega)]
    unfold Offset.FitsSigned
    omega
  · simp at hm

theorem fitsSigned_signedOffset {start stop : Nat} (hstart : start < 0x8000000000000000) :
    Offset.FitsSigned (signedOffset v start stop) := by
  unfold signedOffset Offset.FitsSigned
  rw [Offset.toSigned_of_lt hstart]
  split <;> omega

/-- A deletion in a text of ordinary size is always recorded. -/
theorem recordDelete_eq (start : Nat) (text : Text) (withMarkers : Bool) (v : View)
    (hon : s.log.disabled = false) (hstop : start + text.length < 0x8000000000000000) :
    recordDelete start text withMarkers v s = .ok () (s.afterDelete v start text withMarkers) := by
  have hfits : Offset.Fits (start + text.length) := by
    unfold Offset.Fits
    omega
  have hmoved : ∀ m ∈ (if withMarkers then displacements start (start + text.length) v.markers
      else []), Offset.FitsSigned m.2 := fitsSigned_moved hstop
  have hoffset : Offset.FitsSigned (if v.point = start + text.length then -Offset.toSigned start
      else Offset.toSigned start) := fitsSigned_signedOffset (by omega)
  unfold recordDelete
  rw [whenEnabled_on hon, require_bind, if_pos hfits]
  dsimp only
  rw [require_bind, if_pos hmoved, require_bind, if_pos hoffset]
  rfl

theorem adds_afterDelete (v : View) (start : Nat) (text : Text) (withMarkers : Bool)
    (s : Recording) :
    Adds (.deletion text (signedOffset v start (start + text.length)) ::
        (shifts v start (start + text.length) withMarkers ++
          preamble v (undonePoint v start (start + text.length)) s))
      s (s.afterDelete v start text withMarkers) := by
  have hnoted := adds_notePoint v (undonePoint v start (start + text.length)) s
  have hbegun : Adds (preamble v (undonePoint v start (start + text.length)) s) s
      (if withMarkers then (s.notePoint v (undonePoint v start (start + text.length))).beginChange v
        else s.notePoint v (undonePoint v start (start + text.length))) := by
    split
    · exact hnoted.trans (adds_beginChange v _)
    · exact hnoted
  have hshifted := hbegun.trans (Adds.foldl_push (fun m : MarkerId × Int => .markerShift m.1 m.2)
    ((moved v start (start + text.length) withMarkers).filter (·.2 ≠ 0)) _)
  exact hshifted.trans (Adds.push _ _)

/--
An insertion is recorded by an entry of its own or, if the newest entry is an
insertion that ended where it starts, by making that one longer.
-/
theorem adds_or_lengthens_afterInsert (v : View) (start length : Nat) (s : Recording) :
    Adds (.insertion start (start + length) :: preamble v start s) s
        (s.afterInsert v start length) ∨
      ∃ first older, s.log.entries = .insertion first start :: older ∧
        (s.afterInsert v start length).log.entries = .insertion first (start + length) :: older ∧
        Keeps s (s.afterInsert v start length) := by
  have hnoted := adds_notePoint v start s
  have hpushed := hnoted.trans (Adds.push (.insertion start (start + length)) _)
  unfold afterInsert extendInsertion
  split
  · rename_i first last older hentries
    by_cases hlast : last = start
    · subst hlast
      rw [if_pos rfl]
      refine Or.inr ⟨first, older, ?_, rfl, hnoted.keeps.trans ⟨rfl, rfl, rfl, rfl⟩⟩
      -- A preamble holds no insertion, so the one at the head was there before.
      rw [hnoted.entries] at hentries
      cases hpre : preamble v last s with
      | nil => rwa [hpre, List.nil_append] at hentries
      | cons e rest =>
          rw [hpre, List.cons_append, List.cons.injEq] at hentries
          have he : e ∈ preamble v last s := by
            rw [hpre]
            exact List.mem_cons_self
          rcases mem_preamble he with h | ⟨position, h⟩
          · exact absurd (h.symm.trans hentries.1) (by simp)
          · exact absurd (h.symm.trans hentries.1) (by simp)
    · rw [if_neg hlast]
      exact Or.inl hpushed
  · exact Or.inl hpushed

@[simp] theorem markedTick_push (e : Entry) (s : Recording) :
    (s.push e).log.markedTick = s.log.markedTick := rfl

theorem markedTick_foldl_push {α : Type} (f : α → Entry) (l : List α) :
    ∀ s : Recording, (l.foldl (fun s a => s.push (f a)) s).log.markedTick = s.log.markedTick := by
  induction l with
  | nil => intro s; rfl
  | cons a rest ih => intro s; rw [List.foldl_cons, ih, markedTick_push]

theorem markedTick_afterDelete (v : View) (start : Nat) (text : Text) (withMarkers : Bool)
    (s : Recording) :
    (s.afterDelete v start text withMarkers).log.markedTick
      = (s.notePoint v (undonePoint v start (start + text.length))).log.markedTick := by
  unfold afterDelete
  dsimp only
  rw [markedTick_push, markedTick_foldl_push (fun m : MarkerId × Int => .markerShift m.1 m.2)]
  split
  · exact markedTick_beginChange v _
  · rfl

/-- Right after a deletion was recorded an insertion has no preamble and gets its own entry. -/
theorem adds_afterInsert_afterDelete (v : View) (start : Nat) (text : Text) (withMarkers : Bool)
    (first length : Nat) (s : Recording) :
    Adds [.insertion first (first + length)] (s.afterDelete v start text withMarkers)
      ((s.afterDelete v start text withMarkers).afterInsert v first length) := by
  have hdel := adds_afterDelete v start text withMarkers s
  have hpre : preamble v first (s.afterDelete v start text withMarkers) = [] := by
    unfold preamble
    by_cases hin : s.recorder.settings.inhibitPoint = true
    · rw [if_pos (by rw [hdel.keeps.settings]; exact hin)]
    · rw [if_neg (by rw [hdel.keeps.settings]; exact hin)]
      have hpoint : pointMoves v first (s.afterDelete v start text withMarkers) = [] := by
        unfold pointMoves Log.atBoundary Log.head?
        rw [hdel.entries]
        rfl
      have hfirst : firstChanges v (s.afterDelete v start text withMarkers) = [] := by
        rw [firstChanges_congr (markedTick_afterDelete v start text withMarkers s)]
        exact firstChanges_notePoint (by simpa using hin)
      rw [hpoint, hfirst, List.append_nil]
  rcases adds_or_lengthens_afterInsert v first length (s.afterDelete v start text withMarkers) with
    h | ⟨start', older, hentries, -⟩
  · rwa [hpre] at h
  · rw [hdel.entries] at hentries
    simp at hentries

/-- The recording after a replacement was recorded. -/
def afterChange (v : View) (start : Nat) (old : Text) (s : Recording) : Recording :=
  (s.afterDelete v start old false).afterInsert v start old.length

theorem recordChange_eq {start length : Nat} {v : View} {old : Text}
    (hon : s.log.disabled = false) (hstop : start + length < 0x8000000000000000)
    (hread : v.read start (start + length) = .ok old) (hlen : old.length = length) :
    recordChange start length v s = .ok () (s.afterChange v start old) := by
  have hfits : Offset.Fits (start + length) := by
    unfold Offset.Fits
    omega
  have hdel := recordDelete_eq start old false v hon (by omega)
  have hon' : (s.afterDelete v start old false).log.disabled = false := by
    rw [(adds_afterDelete v start old false s).keeps.disabled, hon]
  have hins := recordInsert_eq start length v hon'
  rw [if_pos hfits] at hins
  unfold recordChange afterChange
  rw [whenEnabled_on hon, require_bind, if_pos hfits, hread]
  simp only [bind, EStateM.bind, hdel]
  rw [hins, hlen]

/-- A replacement is recorded as a deletion and an insertion in its place. -/
theorem adds_afterChange (v : View) (start : Nat) (old : Text) (s : Recording) :
    Adds (.insertion start (start + old.length) ::
        .deletion old (signedOffset v start (start + old.length)) ::
          preamble v (undonePoint v start (start + old.length)) s)
      s (s.afterChange v start old) := by
  have hdel := adds_afterDelete v start old false s
  have hshifts : shifts v start (start + old.length) false = [] := rfl
  rw [hshifts, List.nil_append] at hdel
  exact hdel.trans (adds_afterInsert_afterDelete v start old false start old.length s)

/-- The recording after the old value of a property was recorded. -/
def afterPropertyChange (v : View) (start length : Nat) (name : String) (old : Json)
    (s : Recording) : Recording :=
  ((s.beginChange v).noteFirstChange v).push
    (.propertyChange { doc := v.doc, name, old, start, stop := start + length })

theorem recordPropertyChange_eq (start length : Nat) (name : String) (old : Json) (v : View)
    (hon : s.log.disabled = false) :
    recordPropertyChange start length name old v s =
      if Offset.Fits (start + length) then
        .ok () (s.afterPropertyChange v start length name old)
      else .error (.fault .overflow) s := by
  unfold recordPropertyChange
  rw [whenEnabled_on hon, require_bind]
  rfl

theorem adds_afterPropertyChange (v : View) (start length : Nat) (name : String) (old : Json)
    (s : Recording) :
    Adds (.propertyChange { doc := v.doc, name, old, start, stop := start + length } ::
        firstChanges v s)
      s (s.afterPropertyChange v start length name old) := by
  have hnoted := (adds_beginChange v s).trans (adds_noteFirstChange v (s.beginChange v))
  rw [firstChanges_congr (markedTick_beginChange v s), List.append_nil] at hnoted
  exact hnoted.trans (Adds.push _ _)

/-- After one property change was recorded, another at the same tick gets no first-change entry. -/
theorem firstChanges_afterPropertyChange (v : View) (start length : Nat) (name : String)
    (old : Json) (s : Recording) :
    firstChanges v (s.afterPropertyChange v start length name old) = [] := by
  unfold firstChanges
  rw [if_neg]
  exact not_unnoted_noteFirstChange v (s.beginChange v)

theorem markedTick_afterPropertyChange (v : View) (start length : Nat) (name : String)
    (old : Json) (s : Recording) :
    (s.afterPropertyChange v start length name old).log.markedTick = s.log.markedTick ∨
      (s.afterPropertyChange v start length name old).log.markedTick = some v.ticks.modified := by
  have h := markedTick_noteFirstChange v (s.beginChange v)
  rwa [markedTick_beginChange] at h

/-! ### Boundaries -/

/-- The boundary that closes the open unit, if there is one. -/
def closing (s : Recording) : List Entry := if s.log.atBoundary then [] else [.boundary]

theorem mem_closing {e : Entry} {s : Recording} (h : e ∈ closing s) : e = .boundary := by
  unfold closing at h
  split at h
  · cases h
  · exact List.mem_singleton.mp h

theorem entries_endUnit (v : View) (hon : s.log.disabled = false) :
    (s.endUnit v).log.entries = closing s ++ s.log.entries := by
  unfold endUnit closing
  rw [if_neg (by simp [hon])]
  cases s.log.atBoundary <;> rfl

theorem lastBoundary_endUnit (v : View) (hon : s.log.disabled = false) :
    (s.endUnit v).recorder.lastBoundary = some { doc := v.doc, position := v.point } := by
  unfold endUnit
  rw [if_neg (by simp [hon])]

@[simp] theorem disabled_endUnit (v : View) (s : Recording) :
    (s.endUnit v).log.disabled = s.log.disabled := by
  unfold endUnit
  split
  · rfl
  · cases s.log.atBoundary <;> rfl

@[simp] theorem markedTick_endUnit (v : View) (s : Recording) :
    (s.endUnit v).log.markedTick = s.log.markedTick := by
  unfold endUnit
  split
  · rfl
  · cases s.log.atBoundary <;> rfl

@[simp] theorem settings_endUnit (v : View) (s : Recording) :
    (s.endUnit v).recorder.settings = s.recorder.settings := by
  unfold endUnit
  split
  · rfl
  · cases s.log.atBoundary <;> rfl

@[simp] theorem hook_endUnit (v : View) (s : Recording) :
    (s.endUnit v).recorder.hook = s.recorder.hook := by
  unfold endUnit
  split
  · rfl
  · cases s.log.atBoundary <;> rfl

end EditHistory.Recording
