/-
Two runs side by side.

`Alike R` compares how two runs ended: both with the same value, or both with the same
error, and in states that `R` relates.  `RunsAlike R act act'` says that related states
lead there, and is proved along the structure of the programs, so that all a relation has
to come with is one fact for each primitive.
-/
import EditHistory.Proofs.Recording
import EditHistory.Editing

namespace EditHistory

variable {σ ε β γ δ : Type} {R R' : σ → σ → Prop}

/-- The two runs ended the same way, in states that `R` relates. -/
inductive Alike (R : σ → σ → Prop) :
    EStateM.Result ε σ β → EStateM.Result ε σ β → Prop
  | ok (b : β) {s t : σ} (h : R s t) : Alike R (.ok b s) (.ok b t)
  | error (e : ε) {s t : σ} (h : R s t) : Alike R (.error e s) (.error e t)

theorem Alike.mono {r r' : EStateM.Result ε σ β} (h : Alike R r r')
    (hR : ∀ s t, R s t → R' s t) : Alike R' r r' := by
  cases h with
  | ok b h => exact .ok b (hR _ _ h)
  | error e h => exact .error e (hR _ _ h)

/-- From related states the two actions run alike. -/
def RunsAlike (R : σ → σ → Prop) (act act' : EStateM ε σ β) : Prop :=
  ∀ s t, R s t → Alike R (act s) (act' t)

/-- From related states the action runs alike. -/
abbrev Respects (R : σ → σ → Prop) (act : EStateM ε σ β) : Prop := RunsAlike R act act

namespace RunsAlike

variable {act act' : EStateM ε σ β} {next next' : β → EStateM ε σ γ}

theorem pure (b : β) : Respects R (pure b : EStateM ε σ β) := by
  intro s t h
  exact .ok b h

theorem throw (e : ε) : Respects R (throw e : EStateM ε σ β) := by
  intro s t h
  exact .error e h

theorem modify {f g : σ → σ} (hfg : ∀ s t, R s t → R (f s) (g t)) :
    RunsAlike R (modify f : EStateM ε σ PUnit) (modify g) := by
  intro s t h
  exact .ok PUnit.unit (hfg s t h)

theorem bind (hact : RunsAlike R act act') (hnext : ∀ b, RunsAlike R (next b) (next' b)) :
    RunsAlike R (act >>= next) (act' >>= next') := by
  intro s t h
  have hrun := hact s t h
  simp only [Bind.bind, EStateM.bind]
  generalize act s = r at hrun ⊢
  generalize act' t = r' at hrun ⊢
  cases hrun with
  | ok b h => exact hnext b _ _ h
  | error e h => exact .error e h

/-- What is done with the state may depend on it, as long as the two runs do alike. -/
theorem get_bind {f g : σ → EStateM ε σ β} (hfg : ∀ s t, R s t → RunsAlike R (f s) (g t)) :
    RunsAlike R (get >>= f) (get >>= g) := by
  intro s t h
  exact hfg s t h s t h

theorem ite {p : Prop} [Decidable p] {other other' : EStateM ε σ β} (h : RunsAlike R act act')
    (hother : RunsAlike R other other') :
    RunsAlike R (if p then act else other) (if p then act' else other') := by
  split
  · exact h
  · exact hother

theorem forM {f : δ → EStateM ε σ PUnit} (l : List δ) (h : ∀ a ∈ l, Respects R (f a)) :
    Respects R (l.forM f) := by
  induction l with
  | nil => exact pure _
  | cons a rest ih =>
      refine bind (h a List.mem_cons_self) ?_
      intro _
      exact ih fun b hb => h b (List.mem_cons_of_mem _ hb)

end RunsAlike

/-! ### Recording and editing -/

namespace Recording

variable {R : Recording → Recording → Prop} {call call' : RecordM Unit}

theorem runsAlike_require {p p' : Prop} [Decidable p] [Decidable p'] (hp : p ↔ p') :
    RunsAlike R (require p) (require p') := by
  unfold require
  by_cases h : p
  · rw [if_pos h, if_pos (hp.mp h)]
    exact .pure _
  · rw [if_neg h, if_neg fun h' => h (hp.mpr h')]
    exact .throw _

theorem respects_require (p : Prop) [Decidable p] : Respects R (require p) :=
  runsAlike_require Iff.rfl

/-- Of a log only the switch is asked for. -/
theorem runsAlike_whenEnabled (hR : ∀ s t, R s t → s.log.disabled = t.log.disabled)
    (h : RunsAlike R call call') : RunsAlike R (whenEnabled call) (whenEnabled call') := by
  refine .get_bind ?_
  intro s t hst
  rw [hR s t hst]
  exact .ite (.pure _) h

end Recording

namespace EditM

variable {δ : Type} {R : Editing δ → Editing δ → Prop} {s t : Editing δ}

/-- Recording runs alike as the calls do that it makes. -/
theorem alike_record [Recordable δ] {Q : Recording → Recording → Prop}
    {call call' : View → RecordM Unit}
    (hcall : Alike Q
      (call (Recordable.view s.markers s.doc) { recorder := s.recorder, log := Recordable.log s.doc })
      (call' (Recordable.view t.markers t.doc)
        { recorder := t.recorder, log := Recordable.log t.doc }))
    (hkeep : ∀ r r', Q r r' →
      R { s with recorder := r.recorder, doc := Recordable.setLog r.log s.doc }
        { t with recorder := r'.recorder, doc := Recordable.setLog r'.log t.doc }) :
    Alike R (record call s) (record call' t) := by
  unfold record
  dsimp only
  generalize call (Recordable.view s.markers s.doc) _ = r at hcall ⊢
  generalize call' (Recordable.view t.markers t.doc) _ = r' at hcall ⊢
  cases hcall with
  | ok _ h => exact .ok () (hkeep _ _ h)
  | error e h => exact .error e (hkeep _ _ h)

/-- A change goes alike if it succeeds in both moments, or fails in both with one error. -/
theorem alike_apply {change change' : Editing δ → Except Failure (Editing δ)} (hst : R s t)
    (h : (∃ u u', change s = .ok u ∧ change' t = .ok u' ∧ R u u') ∨
      ∃ e, change s = .error e ∧ change' t = .error e) :
    Alike R (apply change s) (apply change' t) := by
  unfold apply
  rcases h with ⟨u, u', hu, hu', hR⟩ | ⟨e, he, he'⟩
  · rw [hu, hu']
    exact .ok () hR
  · rw [he, he']
    exact .error e hst

theorem respects_require (p : Prop) [Decidable p] : Respects R (require p : EditM δ Unit) :=
  .ite (.pure _) (.throw _)

theorem respects_mapFailure (f : Failure → Failure) {act : EditM δ Unit} (h : Respects R act) :
    Respects R (mapFailure f act) := by
  intro s t hst
  have hrun := h s t hst
  unfold mapFailure
  generalize act s = r at hrun ⊢
  generalize act t = r' at hrun ⊢
  cases hrun with
  | ok _ h => exact .ok _ h
  | error e h => exact .error (f e) h

end EditM

end EditHistory
