/-
Chains: what taking back the entries of a log one by one passes through.

What an undo does depends on what each entry finds when its turn comes.  A `Chain`
says so for every entry at once: it leads from a state of the whole log, entry by
entry, down to a state in which nothing is left to take back.  What a state is and
how an entry leads from one to the next is left open, so that text, markers and
cursor each get a chain of their own.

A chain runs over the entries beside their origins, and its relation may ask for
something at the first entry of each unit: there the state is to be the one of a
moment past.  A log that grows has its chain extended at the top, and a log that is
cut after a boundary keeps the rest of its chain.
-/
import EditHistory.Proofs.Session.Course

namespace EditHistory

variable {σ : Type}

/--
The chain of the entries beside their origins from the state `x` to the state `z`.
`R e begins o x y` says that the entry `e`, recorded in the event `o`, leads from
`x` to `y`; `begins` tells whether it is the first of its unit.
-/
inductive Chain (R : Entry → Bool → Event → σ → σ → Prop) :
    List Entry → List Event → σ → σ → Prop
  | nil {x : σ} : Chain R [] [] x x
  | cons {e : Entry} {older : List Entry} {o : Event} {origins : List Event} {x y z : σ}
      (head : R e (Log.begins e older) o x y) (tail : Chain R older origins y z) :
      Chain R (e :: older) (o :: origins) x z

namespace Chain

variable {R R' : Entry → Bool → Event → σ → σ → Prop} {e : Entry} {entries older : List Entry}
  {o : Event} {origins : List Event} {x y z : σ}

theorem length_eq (h : Chain R entries origins x z) : origins.length = entries.length := by
  induction h with
  | nil => rfl
  | cons _ _ ih => rw [List.length_cons, List.length_cons, ih]

theorem mono (hR : ∀ e begins o x y, R e begins o x y → R' e begins o x y)
    (h : Chain R entries origins x z) : Chain R' entries origins x z := by
  induction h with
  | nil => exact nil
  | cons head _ ih => exact cons (hR _ _ _ _ _ head) ih

/-- What is kept of a log that is cut after a boundary keeps its chain. -/
theorem cut {kept dropped : List Entry} (h : Chain R (kept ++ dropped) origins x z)
    (hcut : dropped = [] ∨ kept.getLast? = some .boundary) :
    ∃ y, Chain R kept (origins.take kept.length) x y := by
  induction kept generalizing origins x with
  | nil => exact ⟨x, nil⟩
  | cons e kept ih =>
      cases h with
      | @cons _ _ o origins _ y _ head tail =>
          have hbegins : Log.begins e (kept ++ dropped) = Log.begins e kept := by
            rcases hcut with rfl | hlast
            · rw [List.append_nil]
            · cases kept with
              | nil =>
                  -- The entry above the cut is a boundary, and never begins anything.
                  have he : e = .boundary := by simpa using hlast
                  rw [he]
                  rfl
              | cons _ _ => rfl
          have hcut' : dropped = [] ∨ kept.getLast? = some .boundary ∨ kept = [] := by
            rcases hcut with h | h
            · exact Or.inl h
            · cases kept with
              | nil => exact Or.inr (Or.inr rfl)
              | cons e' kept => exact Or.inr (Or.inl (by rwa [List.getLast?_cons_cons] at h))
          have hhead : R e (Log.begins e kept) o x y := by
            rw [← hbegins]
            exact head
          rcases hcut' with h | h | h
          · obtain ⟨y', htail⟩ := ih tail (Or.inl h)
            exact ⟨y', cons hhead htail⟩
          · obtain ⟨y', htail⟩ := ih tail (Or.inr h)
            exact ⟨y', cons hhead htail⟩
          · subst h
            exact ⟨y, cons hhead nil⟩

end Chain

/-! ### Chains that a function spells out -/

/--
The step of a chain in which taking back the entry `e` takes the state `x` to
`f e x`, and `P` tells of the state at the origin of the first entry of a unit.
-/
def FoldStep (f : Entry → σ → σ) (P : Event → σ → Prop) :
    Entry → Bool → Event → σ → σ → Prop :=
  fun e begins o x y => y = f e x ∧ (begins = true → P o y)

theorem foldl_still {f : Entry → σ → σ} {l : List Entry} (h : ∀ e ∈ l, ∀ x, f e x = x) (x : σ) :
    l.foldl (fun x e => f e x) x = x := by
  induction l with
  | nil => rfl
  | cons e l ih =>
      rw [List.foldl_cons, h e List.mem_cons_self, ih fun e he => h e (List.mem_cons_of_mem _ he)]

namespace Chain

variable {τ : Type} {f : Entry → σ → σ} {P : Event → σ → Prop} {entries new : List Entry}
  {o : Event} {os : List Event} {x z : σ}

/--
What is recorded in one event extends the chain if taking it back, all of it, leads
to a state of which `P` tells.
-/
theorem grow (hnew : ∀ e ∈ new, e.isBoundary = false)
    (hP : P o (new.foldl (fun x e => f e x) x))
    (h : Chain (FoldStep f P) entries os (new.foldl (fun x e => f e x) x) z) :
    Chain (FoldStep f P) (new ++ entries) (List.replicate new.length o ++ os) x z := by
  induction new generalizing x with
  | nil => exact h
  | cons e new ih =>
      have hnew' : ∀ e ∈ new, e.isBoundary = false := fun e he => hnew e (List.mem_cons_of_mem _ he)
      refine cons ⟨rfl, fun hb => ?_⟩ (ih hnew' hP h)
      obtain ⟨rfl, -⟩ := Log.begins_append hnew' hb
      exact hP

/-- Where nothing is asked of the origins there is a chain from every state. -/
theorem of_forall (hlen : os.length = entries.length) (hP : ∀ o ∈ os, ∀ y, P o y) (x : σ) :
    ∃ z, Chain (FoldStep f P) entries os x z := by
  induction entries generalizing os x with
  | nil =>
      cases os with
      | nil => exact ⟨x, nil⟩
      | cons o os => cases hlen
  | cons e entries ih =>
      cases os with
      | nil => cases hlen
      | cons o os =>
          obtain ⟨z, h⟩ := ih (Nat.succ.inj hlen)
            (fun o ho => hP o (List.mem_cons_of_mem _ ho)) (f e x)
          exact ⟨z, cons ⟨rfl, fun _ => hP o List.mem_cons_self _⟩ h⟩

/-- Two chains over the same entries run side by side. -/
theorem prod {R : Entry → Bool → Event → σ → σ → Prop} {R' : Entry → Bool → Event → τ → τ → Prop}
    {x z : σ} {x' z' : τ} (h : Chain R entries os x z) (h' : Chain R' entries os x' z') :
    Chain (fun e begins o a b => R e begins o a.1 b.1 ∧ R' e begins o a.2 b.2) entries os
      (x, x') (z, z') := by
  induction h generalizing x' with
  | nil =>
      cases h' with
      | nil => exact nil
  | cons head _ ih =>
      cases h' with
      | cons head' tail' => exact cons ⟨head, head'⟩ (ih tail')

end Chain

/-! ### Origins -/

section Origins

variable {s s' : Editing Document} {what : Happening} {past : List Event} {new : List Entry}

/-- What a log grew by has its origin in the event that it grew in. -/
theorem origins_grown (hlen : (origins s past).length = s.doc.log.length)
    (h : s'.doc.log.entries = new ++ s.doc.log.entries) :
    origins s' ({ before := s, what } :: past)
      = List.replicate new.length { before := s, what } ++ origins s past := by
  have hlength : s'.doc.log.length = new.length + s.doc.log.length := by
    unfold Log.length
    rw [h, List.length_append]
  rw [origins, List.take_of_length_le]
  · dsimp only
    rw [hlength, Nat.add_sub_cancel]
  · dsimp only
    rw [List.length_append, List.length_replicate, hlen, hlength]
    omega

theorem origins_kept (hlen : (origins s past).length = s.doc.log.length)
    (h : s'.doc.log.length = s.doc.log.length) :
    origins s' ({ before := s, what } :: past) = origins s past := by
  rw [origins]
  dsimp only
  rw [h, Nat.sub_self, List.replicate_zero, List.nil_append, ← hlen, List.take_length]

/-- An entry has its origin in the past. -/
theorem mem_of_mem_origins {e : Event} (h : e ∈ origins s past) : e ∈ past := by
  induction past generalizing s with
  | nil => cases h
  | cons e' earlier ih =>
      rcases List.mem_append.mp (List.mem_of_mem_take h) with h | h
      · rw [List.eq_of_mem_replicate h]
        exact List.mem_cons_self
      · exact List.mem_cons_of_mem _ (ih h)

theorem origins_cut (h : s'.doc.log.length ≤ s.doc.log.length) :
    origins s' ({ before := s, what } :: past) = (origins s past).take s'.doc.log.length := by
  rw [origins]
  dsimp only
  rw [Nat.sub_eq_zero_of_le h, List.replicate_zero, List.nil_append]

end Origins

/-! ### Chains down a log -/

/-- The chain of `R` down the log of the moment `s` leads from the state `x` to `z`. -/
def Descends (R : Entry → Bool → Event → σ → σ → Prop) (s : Editing Document) (past : List Event)
    (x z : σ) : Prop :=
  Chain R s.doc.log.entries (origins s past) x z

namespace Descends

variable {R : Entry → Bool → Event → σ → σ → Prop} {s s' : Editing Document} {what : Happening}
  {past : List Event} {new older : List Entry} {e e' : Entry} {x x' z : σ}

theorem start (h : s.doc.log.entries = []) (x : σ) : Descends R s [] x x := by
  unfold Descends
  rw [h]
  exact .nil

theorem length_origins (h : Descends R s past x z) :
    (origins s past).length = s.doc.log.length := h.length_eq

theorem kept (h : Descends R s past x z) (hentries : s'.doc.log.entries = s.doc.log.entries) :
    Descends R s' ({ before := s, what } :: past) x z := by
  unfold Descends
  rw [origins_kept h.length_origins (congrArg List.length hentries), hentries]
  exact h

/-- What a log grows by extends the chain at its top. -/
theorem grown (h : Chain R (new ++ s.doc.log.entries)
      (List.replicate new.length { before := s, what } ++ origins s past) x z)
    (hentries : s'.doc.log.entries = new ++ s.doc.log.entries) :
    Descends R s' ({ before := s, what } :: past) x z := by
  have hlen : (origins s past).length = s.doc.log.length := by
    have hlength := h.length_eq
    rw [List.length_append, List.length_append, List.length_replicate] at hlength
    exact Nat.add_left_cancel hlength
  unfold Descends
  rw [origins_grown hlen hentries, hentries]
  exact h

/-- If another entry takes the place of the newest, the chain below it stays what it is. -/
theorem exchanged (h : Descends R s past x z) (hbefore : s.doc.log.entries = e :: older)
    (hafter : s'.doc.log.entries = e' :: older) (he : e'.isBoundary = e.isBoundary)
    (hR : ∀ begins o y, R e begins o x y → R e' begins o x' y) :
    Descends R s' ({ before := s, what } :: past) x' z := by
  have hlen : s'.doc.log.length = s.doc.log.length :=
    (congrArg List.length hafter).trans (congrArg List.length hbefore).symm
  have hbegins : Log.begins e' older = Log.begins e older := by
    unfold Log.begins
    rw [he]
  unfold Descends at h ⊢
  rw [origins_kept h.length_eq hlen, hafter]
  rw [hbefore] at h
  generalize origins s past = os at h ⊢
  cases h with
  | cons head tail =>
      refine .cons ?_ tail
      rw [hbegins]
      exact hR _ _ _ head

theorem closing (h : Descends R s past x z) (hon : s.doc.log.disabled = false)
    (hR : R .boundary false { before := s, what } x x) :
    Descends R s.closing ({ before := s, what } :: past) x z := by
  refine grown ?_ (Editing.entries_closing hon)
  unfold Recording.closing
  cases s.recording.log.atBoundary with
  | true => exact h
  | false => exact .cons hR h

/-- A truncation keeps the chain of what it keeps. -/
theorem truncated (h : Descends R s past x z) (ht : Truncated s s')
    (hhook : s.recorder.hook.isNone) :
    ∃ z', Descends R s' ({ before := s, what } :: past) x z' := by
  obtain ⟨dropped, hsplit, hcut⟩ := (ht.cut hhook).entries
  have hlen : s'.doc.log.length ≤ s.doc.log.length := by
    unfold Log.length
    rw [hsplit, List.length_append]
    omega
  unfold Descends at h ⊢
  rw [hsplit] at h
  rw [origins_cut hlen]
  exact h.cut hcut

end Descends

/-! ### Beginnings, unit by unit -/

section Beginnings

variable {e : Entry} {body rest : List Entry}

theorem beginnings_unit (hbody : ∀ b ∈ body, b.isBoundary = false) (he : e.isBoundary = false)
    (hrest : Log.opens rest = true) (os : List Event) :
    beginnings (body ++ e :: rest) os =
      (os.drop body.length).head?.toList ++ beginnings rest (os.drop (body.length + 1)) := by
  induction body generalizing os with
  | nil =>
      cases os with
      | nil => cases rest <;> rfl
      | cons o os =>
          rw [List.nil_append, beginnings, if_pos (Log.begins_of_opens he hrest)]
          rfl
  | cons b body ih =>
      cases os with
      | nil => cases rest <;> rfl
      | cons o os =>
          have hbegins : Log.begins b (body ++ e :: rest) = false := by
            cases body with
            | nil => exact Log.begins_cons he b
            | cons b' body => exact Log.begins_cons (hbody b' (by simp)) b
          rw [List.cons_append, beginnings, hbegins]
          exact ih (fun b hb => hbody b (List.mem_cons_of_mem _ hb)) os

/-- There are as many beginnings as units. -/
theorem length_beginnings {entries : List Entry} {os : List Event}
    (h : os.length = entries.length) :
    (beginnings entries os).length = (Log.groups [] entries).length := by
  induction entries using Log.unit_induction generalizing os with
  | nil => cases os <;> rfl
  | boundary older ih =>
      cases os with
      | nil => cases h
      | cons o os =>
          rw [Log.groups_boundary, beginnings, Log.begins_boundary]
          exact ih (Nat.succ.inj h)
  | unit body e rest hbody he hrest ih =>
      have hlen : (os.drop (body.length + 1)).length = rest.length := by
        rw [List.length_drop, h, List.length_append, List.length_cons]
        omega
      rw [beginnings_unit hbody he hrest, Log.groups_unit hbody he hrest, List.length_append,
        ih hlen, List.length_cons]
      have hdrop : (os.drop body.length).length = rest.length + 1 := by simp [h]
      cases hos : os.drop body.length with
      | nil =>
          rw [hos] at hdrop
          cases hdrop
      | cons o os =>
          simp
          omega

namespace Chain

variable {f : Entry → σ → σ} {P : Event → σ → Prop} {unit entries : List Entry} {os : List Event}
  {x z : σ}

/-- Below the newest entries the chain goes on from where taking them back leads. -/
theorem foldl_rest (h : Chain (FoldStep f P) (unit ++ rest) os x z) :
    Chain (FoldStep f P) rest (os.drop unit.length) (unit.foldl (fun x e => f e x) x) z := by
  induction unit generalizing os x with
  | nil => exact h
  | cons e unit ih =>
      cases h with
      | cons head tail =>
          obtain ⟨rfl, -⟩ := head
          exact ih tail

/--
Where taking back the `k + 1` newest units leads, `P` tells of the origin of the entry with
which the oldest of them began.
-/
theorem beginning_told {k : Nat} {o : Event} (hstill : ∀ x, f .boundary x = x)
    (h : Chain (FoldStep f P) entries os x z) (ho : (beginnings entries os)[k]? = some o) :
    P o (((Log.groups [] entries).take (k + 1)).flatten.foldl (fun x e => f e x) x) := by
  induction entries using Log.unit_induction generalizing os x k with
  | nil =>
      cases h with
      | nil => cases ho
  | boundary older ih =>
      cases h with
      | cons head tail =>
          obtain ⟨rfl, -⟩ := head
          rw [hstill] at tail
          exact ih tail ho
  | unit body e rest hbody he hrest ih =>
      have hlast := h.foldl_rest
      generalize hos : os.drop body.length = os' at hlast
      cases hlast with
      | @cons _ _ o' os' _ y _ head tail =>
          rw [beginnings_unit hbody he hrest, ← List.drop_drop, hos] at ho
          obtain ⟨rfl, htold⟩ := head
          rw [Log.groups_unit hbody he hrest, List.take_succ_cons, List.flatten_cons,
            List.foldl_append, List.foldl_append]
          cases k with
          | zero =>
              obtain rfl : o' = o := by simpa using ho
              exact htold (Log.begins_of_opens he hrest)
          | succ k => exact ih tail (by simpa using ho)

end Chain

end Beginnings

end EditHistory
