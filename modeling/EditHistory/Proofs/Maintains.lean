/-
Runs that end without a fault.

A fault ends the session, and what it leaves behind is seen by nobody.  `EndsAt` is where
a run ends otherwise, whether it succeeds or is refused, and an action `Maintains` what
holds where it ends if it holds where it starts.  That is proved along the structure of the
program, so that a condition under which a program goes on can be used for what follows.
-/
import EditHistory.Proofs.Session.Course

namespace EditHistory

section Runs

variable {σ α β : Type} {act : EStateM Failure σ α} {next : α → EStateM Failure σ β}
  {P : σ → Prop} {s s' : σ}

/-- The run ends at `s'`, and not in a fault. -/
def EndsAt (act : EStateM Failure σ α) (s s' : σ) : Prop :=
  (∃ a, act s = .ok a s') ∨ ∃ e, act s = .error (.error e) s'

namespace EndsAt

theorem pure_iff {a : α} : EndsAt (pure a) s s' ↔ s' = s := by
  constructor
  · rintro (⟨b, h⟩ | ⟨e, h⟩)
    · exact (EStateM.Result.ok.inj h).2.symm
    · cases h
  · rintro rfl
    exact Or.inl ⟨a, rfl⟩

theorem modify_iff {f : σ → σ} :
    EndsAt (modify f : EStateM Failure σ PUnit) s s' ↔ s' = f s := by
  constructor
  · rintro (⟨b, h⟩ | ⟨e, h⟩)
    · exact (EStateM.Result.ok.inj h).2.symm
    · cases h
  · rintro rfl
    exact Or.inl ⟨⟨⟩, rfl⟩

theorem of_throw {e : Failure} (h : EndsAt (throw e : EStateM Failure σ α) s s') : s' = s := by
  rcases h with ⟨a, h⟩ | ⟨e', h⟩
  · cases h
  · exact (EStateM.Result.error.inj h).2.symm

/-- The first part is refused, or the second goes on from where the first succeeded. -/
theorem bind (h : EndsAt (act >>= next) s s') :
    (∃ a s₁, act s = .ok a s₁ ∧ EndsAt (next a) s₁ s') ∨ ∃ e, act s = .error (.error e) s' := by
  unfold EndsAt at h
  simp only [Bind.bind, EStateM.bind] at h
  cases hrun : act s with
  | ok a s₁ =>
      rw [hrun] at h
      exact Or.inl ⟨a, s₁, rfl, h⟩
  | error e s₁ =>
      rw [hrun] at h
      rcases h with ⟨b, h⟩ | ⟨e', h⟩
      · cases h
      · cases h
        exact Or.inr ⟨e', rfl⟩

/-- A run without a fault ends at its final state. -/
theorem of_not_faults (h : faults (act s) = false) : EndsAt act s (finalState (act s)) := by
  unfold EndsAt
  cases hrun : act s with
  | ok a s₁ => exact Or.inl ⟨a, rfl⟩
  | error e s₁ =>
      rw [hrun] at h
      cases e with
      | fault f => cases h
      | error e => exact Or.inr ⟨e, rfl⟩

theorem not_faults (h : EndsAt act s s') : faults (act s) = false := by
  rcases h with ⟨a, h⟩ | ⟨e, h⟩ <;> rw [h] <;> rfl

theorem finalState_eq (h : EndsAt act s s') : finalState (act s) = s' := by
  rcases h with ⟨a, h⟩ | ⟨e, h⟩ <;> rw [h] <;> rfl

end EndsAt

/-- What holds where the action starts holds where it ends. -/
def Maintains (P : σ → Prop) (act : EStateM Failure σ α) : Prop :=
  ∀ s s', EndsAt act s s' → P s → P s'

namespace Maintains

theorem pure (a : α) : Maintains P (pure a) := by
  intro s s' h hP
  rwa [EndsAt.pure_iff.mp h]

theorem throw (e : Failure) : Maintains P (throw e : EStateM Failure σ α) := by
  intro s s' h hP
  rwa [h.of_throw]

theorem get : Maintains P (get : EStateM Failure σ σ) := by
  intro s s' h hP
  rcases h with ⟨a, h⟩ | ⟨e, h⟩
  · rwa [← (EStateM.Result.ok.inj h).2]
  · cases h

theorem modify {f : σ → σ} (h : ∀ s, P s → P (f s)) :
    Maintains P (modify f : EStateM Failure σ PUnit) := by
  intro s s' hends hP
  rw [EndsAt.modify_iff.mp hends]
  exact h s hP

theorem bind (hact : Maintains P act) (hnext : ∀ a, Maintains P (next a)) :
    Maintains P (act >>= next) := by
  intro s s' h hP
  rcases h.bind with ⟨a, s₁, hrun, hrest⟩ | ⟨e, hrun⟩
  · exact hnext a s₁ s' hrest (hact s s₁ (Or.inl ⟨a, hrun⟩) hP)
  · exact hact s s' (Or.inr ⟨e, hrun⟩) hP

theorem ite {p : Prop} [Decidable p] {act' : EStateM Failure σ α} (h : p → Maintains P act)
    (h' : ¬p → Maintains P act') : Maintains P (if p then act else act') := by
  split
  · rename_i hp
    exact h hp
  · rename_i hp
    exact h' hp

theorem forM {δ : Type} {f : δ → EStateM Failure σ PUnit} {l : List δ}
    (h : ∀ a ∈ l, Maintains P (f a)) : Maintains P (l.forM f) := by
  induction l with
  | nil => exact pure _
  | cons a rest ih =>
      exact bind (h a List.mem_cons_self) fun _ =>
        ih fun b hb => h b (List.mem_cons_of_mem _ hb)

end Maintains

end Runs

/-! ### Where a run comes to -/

section Runs

variable {σ : Type} {s t u : σ}

/-- The action succeeds and ends at `t`, or it ends in a fault. -/
def ComesTo (act : EStateM Failure σ Unit) (s t : σ) : Prop :=
  act s = .ok () t ∨ ∃ fault s', act s = .error (.fault fault) s'

namespace ComesTo

variable {act act' : EStateM Failure σ Unit}

theorem eq_of_endsAt (h : ComesTo act s t) (hends : EndsAt act s u) : act s = .ok () t ∧ u = t := by
  rcases h with h | ⟨fault, s', h⟩
  · refine ⟨h, ?_⟩
    rcases hends with ⟨a, hends⟩ | ⟨e, hends⟩ <;> rw [h] at hends <;> cases hends
    rfl
  · rcases hends with ⟨a, hends⟩ | ⟨e, hends⟩ <;> rw [h] at hends <;> cases hends

/-- What comes to somewhere is not refused. -/
theorem not_refused (h : ComesTo act s t) (e : EditError) : act s ≠ .error (.error e) u := by
  intro hrun
  rcases h with h | ⟨fault, s', h⟩ <;> rw [h] at hrun <;> cases hrun

theorem pure : ComesTo (pure ()) s s := Or.inl rfl

theorem modify (f : σ → σ) : ComesTo (modify f) s (f s) := Or.inl rfl

theorem bind (h : ComesTo act s t) (h' : ComesTo act' t u) : ComesTo (do act; act') s u := by
  unfold ComesTo
  simp only [Bind.bind, EStateM.bind]
  rcases h with h | ⟨fault, s', h⟩
  · rw [h]
    exact h'
  · rw [h]
    exact Or.inr ⟨fault, s', rfl⟩

end ComesTo

end Runs

/-! ### Recording calls -/

namespace Recording

variable {P : Recording → Prop} {call : RecordM Unit}

/-- A condition that a call requires holds from there on. -/
theorem maintains_require {p : Prop} [Decidable p] {next : RecordM Unit}
    (h : p → Maintains P next) : Maintains P (do require p; next) := by
  intro s s' hends
  have hrun : (do require p; next : RecordM Unit) s
      = if p then next s else .error (.fault .overflow) s := require_bind _ s
  unfold EndsAt at hends
  rw [hrun] at hends
  by_cases hp : p
  · rw [if_pos hp] at hends
    exact h hp s s' hends
  · rw [if_neg hp] at hends
    rcases hends with ⟨a, hends⟩ | ⟨e, hends⟩ <;> cases hends

theorem maintains_whenEnabled (h : Maintains P call) : Maintains P (whenEnabled call) :=
  Maintains.bind Maintains.get fun _ => Maintains.ite (fun _ => Maintains.pure _) fun _ => h

theorem maintains_recordInsert (start length : Nat) (v : View)
    (h : ∀ s, P s → P (s.afterInsert v start length)) :
    Maintains P (recordInsert start length v) :=
  maintains_whenEnabled <| maintains_require fun _ => Maintains.modify h

theorem maintains_recordDelete (start : Nat) (text : Text) (withMarkers : Bool) (v : View)
    (h : Offset.Fits (start + text.length) →
      (∀ m ∈ moved v start (start + text.length) withMarkers, Offset.FitsSigned m.2) →
      ∀ s, P s → P (s.afterDelete v start text withMarkers)) :
    Maintains P (recordDelete start text withMarkers v) :=
  maintains_whenEnabled <| maintains_require fun hstop => maintains_require fun hmoved =>
    maintains_require fun _ => Maintains.modify (h hstop hmoved)

theorem maintains_recordChange (start length : Nat) (v : View)
    (hdelete : ∀ text, Maintains P (recordDelete start text false v))
    (hinsert : Maintains P (recordInsert start length v)) :
    Maintains P (recordChange start length v) := by
  refine maintains_whenEnabled <| maintains_require fun _ => ?_
  split
  · exact Maintains.throw _
  · exact Maintains.bind (hdelete _) fun _ => hinsert

theorem maintains_recordFirstChange (v : View) (h : ∀ s, P s → P (s.noteFirstChange v)) :
    Maintains P (recordFirstChange v) :=
  maintains_whenEnabled <| Maintains.modify h

theorem maintains_recordPropertyChange (start length : Nat) (name : String) (old : Json) (v : View)
    (h : ∀ s, P s → P (s.afterPropertyChange v start length name old)) :
    Maintains P (recordPropertyChange start length name old v) :=
  maintains_whenEnabled <| maintains_require fun _ => Maintains.modify h

end Recording

/-! ### Editing -/

namespace EditM

variable {δ α : Type} {P : Editing δ → Prop} {s s' : Editing δ}

/-- A recording ends where the recording call does. -/
theorem endsAt_record [Recordable δ] {call : View → RecordM Unit}
    (h : EndsAt (record call) s s') :
    ∃ r, EndsAt (call (Recordable.view s.markers s.doc))
        { recorder := s.recorder, log := Recordable.log s.doc } r ∧
      s' = { s with recorder := r.recorder, doc := Recordable.setLog r.log s.doc } := by
  unfold EndsAt record at h
  dsimp only at h
  cases hrun : call (Recordable.view s.markers s.doc)
      { recorder := s.recorder, log := Recordable.log s.doc } with
  | ok a r =>
      rw [hrun] at h
      refine ⟨r, Or.inl ⟨a, hrun⟩, ?_⟩
      rcases h with ⟨b, h⟩ | ⟨e, h⟩ <;> cases h
      rfl
  | error e r =>
      rw [hrun] at h
      rcases h with ⟨b, h⟩ | ⟨e', h⟩ <;> cases h
      exact ⟨r, Or.inr ⟨e', hrun⟩, rfl⟩

theorem maintains_apply {change : Editing δ → Except Failure (Editing δ)}
    (h : ∀ s s', change s = .ok s' → P s → P s') : Maintains P (apply change) := by
  intro s s' hends hP
  unfold EndsAt apply at hends
  cases hrun : change s with
  | ok s₁ =>
      rw [hrun] at hends
      rcases hends with ⟨a, hends⟩ | ⟨e, hends⟩ <;> cases hends
      exact h s _ hrun hP
  | error e =>
      rw [hrun] at hends
      rcases hends with ⟨a, hends⟩ | ⟨e', hends⟩ <;> cases hends
      exact hP

theorem maintains_modifyDoc {f : δ → δ} (h : ∀ s, P s → P { s with doc := f s.doc }) :
    Maintains P (modifyDoc f) := Maintains.modify h

theorem maintains_require (p : Prop) [Decidable p] : Maintains P (require p : EditM δ Unit) :=
  Maintains.ite (fun _ => Maintains.pure _) fun _ => Maintains.throw _

/-- A fault in other words is a fault still. -/
theorem maintains_mapFailure {f : Failure → Failure} {act : EditM δ Unit}
    (hf : ∀ fault, f (.fault fault) = .fault fault) (h : Maintains P act) :
    Maintains P (mapFailure f act) := by
  intro s s' hends hP
  unfold EndsAt mapFailure at hends
  cases hrun : act s with
  | ok a s₁ =>
      rw [hrun] at hends
      rcases hends with ⟨b, hends⟩ | ⟨e, hends⟩ <;> cases hends
      exact h s _ (Or.inl ⟨a, hrun⟩) hP
  | error e s₁ =>
      rw [hrun] at hends
      cases e with
      | fault fault =>
          dsimp only at hends
          rw [hf fault] at hends
          rcases hends with ⟨b, hends⟩ | ⟨e, hends⟩ <;> cases hends
      | error e =>
          rcases hends with ⟨b, hends⟩ | ⟨e', hends⟩
          · cases hends
          · obtain rfl : s₁ = s' := (EStateM.Result.error.inj hends).2
            exact h s s₁ (Or.inr ⟨e, hrun⟩) hP

theorem maintains_done {act : EditM δ Unit} (h : Maintains P act) : Maintains P (done act) :=
  Maintains.bind h fun _ => Maintains.pure _

end EditM

end EditHistory
