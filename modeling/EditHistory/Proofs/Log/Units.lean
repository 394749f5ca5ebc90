/-
A log, unit by unit.

The entries of a log are boundaries and units, and a unit ends, at its old end, in
a boundary or with the log.  `unit_induction` is the induction that follows this:
one entry of a unit is the oldest, the one that began it, and what is older `opens`
a unit.
-/
import EditHistory.Log.Units

namespace EditHistory

namespace Log

/-- Whether a unit starts with what is recorded on top of these entries. -/
def opens (entries : List Entry) : Bool := entries.head?.all Entry.isBoundary

/-- Whether the entry, on top of older ones, is the first of its unit. -/
def begins (e : Entry) (older : List Entry) : Bool := !e.isBoundary && opens older

variable {e : Entry} {older body rest : List Entry}

theorem begins_boundary : begins .boundary older = false := rfl

/-- On top of an entry that is no boundary nothing begins. -/
theorem begins_cons (h : e.isBoundary = false) (e' : Entry) :
    begins e' (e :: older) = false := by
  simp [begins, opens, h]

theorem begins_of_opens (he : e.isBoundary = false) (h : opens older = true) :
    begins e older = true := by
  simp [begins, he, h]

theorem opens_of_begins (h : begins e older = true) : opens older = true :=
  (Bool.and_eq_true_iff.mp h).2

theorem atBoundary_eq_opens (log : Log) : log.atBoundary = opens log.entries := rfl

/-- On top of entries none of which is a boundary nothing begins, unless there are none. -/
theorem begins_append (hbody : ∀ b ∈ body, b.isBoundary = false)
    (h : begins e (body ++ older) = true) : body = [] ∧ opens older = true := by
  cases body with
  | nil => exact ⟨rfl, opens_of_begins h⟩
  | cons b body =>
      rw [List.cons_append, begins_cons (hbody b List.mem_cons_self)] at h
      cases h

/-- Induction over the units of a log, from the oldest one on. -/
theorem unit_induction {motive : List Entry → Prop} (nil : motive [])
    (boundary : ∀ older, motive older → motive (.boundary :: older))
    (unit : ∀ (body : List Entry) (e : Entry) (rest : List Entry),
      (∀ b ∈ body, b.isBoundary = false) → e.isBoundary = false → opens rest = true →
      motive rest → motive (body ++ e :: rest)) (entries : List Entry) : motive entries := by
  -- Beside the entries themselves, any open unit on top of them has to be dealt with.
  suffices h : motive entries ∧ ∀ (body : List Entry) (e : Entry),
      (∀ b ∈ body, b.isBoundary = false) → e.isBoundary = false →
      motive (body ++ e :: entries) from h.1
  induction entries with
  | nil => exact ⟨nil, fun body e hbody he => unit body e [] hbody he rfl nil⟩
  | cons e₀ older ih =>
      obtain ⟨holder, hopen⟩ := ih
      cases he₀ : e₀.isBoundary with
      | true =>
          have h : motive (e₀ :: older) := by
            rw [Entry.isBoundary_iff.mp he₀]
            exact boundary older holder
          refine ⟨h, fun body e hbody he => unit body e _ hbody he ?_ h⟩
          simp [opens, he₀]
      | false =>
          refine ⟨hopen [] e₀ (by simp) he₀, fun body e hbody he => ?_⟩
          have h := hopen (body ++ [e]) e₀ (fun b hb => by
            rcases List.mem_append.mp hb with hb | hb
            · exact hbody b hb
            · rwa [List.mem_singleton.mp hb]) he₀
          rwa [List.append_assoc] at h

/-! ### Grouping, unit by unit -/

theorem groups_append {current : List Entry} (hbody : ∀ b ∈ body, b.isBoundary = false) :
    groups current (body ++ rest) = groups (body.reverse ++ current) rest := by
  induction body generalizing current with
  | nil => rfl
  | cons b body ih =>
      rw [List.cons_append, groups, if_neg (by simp [hbody b List.mem_cons_self]),
        ih fun b hb => hbody b (List.mem_cons_of_mem _ hb)]
      simp

theorem groups_boundary : groups [] (.boundary :: older) = groups [] older := rfl

theorem groups_unit (hbody : ∀ b ∈ body, b.isBoundary = false) (he : e.isBoundary = false)
    (hrest : opens rest = true) :
    groups [] (body ++ e :: rest) = (body ++ [e]) :: groups [] rest := by
  rw [groups_append hbody, groups, if_neg (by simp [he])]
  cases rest with
  | nil => simp [groups]
  | cons e' rest =>
      have he' : e' = .boundary := by simpa [opens] using hrest
      subst he'
      simp [groups]

/-- The groups together are the entries but for the boundaries. -/
theorem flatten_groups (current entries : List Entry) :
    (groups current entries).flatten
      = current.reverse ++ entries.filter fun e => !e.isBoundary := by
  induction entries generalizing current with
  | nil => cases current <;> simp [groups]
  | cons e older ih =>
      by_cases he : e.isBoundary = true
      · cases current <;> simp [groups, he, ih]
      · simp [groups, he, ih]

/-- The newest units together are the newest of the entries that are no boundaries. -/
theorem flatten_take_groups_prefix (entries : List Entry) (count : Nat) :
    ((groups [] entries).take count).flatten <+: entries.filter fun e => !e.isBoundary := by
  refine ⟨((groups [] entries).drop count).flatten, ?_⟩
  rw [← List.flatten_append, List.take_append_drop, flatten_groups]
  rfl

/-! ### Grouping, above and below a boundary -/

/-- What is below a boundary is grouped by itself. -/
theorem groups_append_of_opens {current newer : List Entry} (h : opens older = true) :
    groups current (newer ++ older) = groups current newer ++ groups [] older := by
  induction newer generalizing current with
  | nil =>
      cases older with
      | nil => simp [groups]
      | cons e older =>
          have he : e = .boundary := by simpa [opens] using h
          subst he
          cases current <;> simp [groups]
  | cons e newer ih =>
      by_cases he : e.isBoundary = true
      · cases current <;> simp [groups, he, ih]
      · simp [groups, he, ih]

/-- So is what is below entries that end in a boundary. -/
theorem groups_append_of_closed {newer : List Entry}
    (h : older = [] ∨ newer.getLast? = some .boundary) :
    groups [] (newer ++ older) = groups [] newer ++ groups [] older := by
  rcases h with rfl | hlast
  · exact groups_append_of_opens rfl
  · obtain ⟨newer, rfl⟩ := List.getLast?_eq_some_iff.mp hlast
    rw [List.append_assoc, List.singleton_append, groups_append_of_opens rfl,
      groups_append_of_opens rfl, groups_boundary, groups_boundary, List.append_assoc]
    rfl

end Log

end EditHistory
