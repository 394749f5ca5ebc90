/-
A path leads through directories.

Every name on a path but the last is walked from a directory, so where a path leads to
something, the directories that `ancestors` names for it are all there.  A name `.` only asks
for a directory, which is why `ancestors` may leave it out.

A name `..` is the one way back.  On a disk where every item stands in a directory, a path
without it that names a file is already walked to that file.  With it a path can name a file
and still lead nowhere, because of a directory that is missing on the way.
-/
import EditHistory.Proofs.Disk
import EditHistory.Proofs.Files

namespace EditHistory.Disk

variable {d d' : Disk} {path : String} {names : List String} {place target : Place} {item : Item}

/-! ### Walks -/

theorem walk_append_eq_ok {front rest : List String} :
    d.walk place (front ++ rest) = .ok target ↔
      ∃ middle, d.walk place front = .ok middle ∧ d.walk middle rest = .ok target := by
  induction front generalizing place with
  | nil => simp [walk]
  | cons name front ih =>
      rw [List.cons_append, walk_cons_eq_ok, ih]
      simp only [walk_cons_eq_ok, and_assoc, exists_and_left]

/-- A name `.` leads nowhere else. -/
theorem walk_filter (h : d.walk place names = .ok target) :
    d.walk place (names.filter (· ≠ ".")) = .ok target := by
  induction names generalizing place with
  | nil => exact h
  | cons name rest ih =>
      obtain ⟨hplace, hrest⟩ := walk_cons_eq_ok.mp h
      by_cases hname : name = "."
      · rw [List.filter_cons_of_neg (by simpa using hname)]
        rw [Place.step, if_pos hname] at hrest
        exact ih hrest
      · rw [List.filter_cons_of_pos (by simpa using hname)]
        exact walk_cons_eq_ok.mpr ⟨hplace, ih hrest⟩

/-! ### Paths -/

theorem filter_steps (path : String) :
    (steps path).filter (· ≠ ".") = (pathNames path).filter (· ≠ ".") := by
  unfold steps
  split <;> simp

theorem mem_steps {name : String} (h : name ∈ steps path) : name ∈ pathNames path ∨ name = "." := by
  unfold steps at h
  rcases List.mem_append.mp h with h | h
  · exact .inl h
  · split at h
    · exact .inr (List.mem_singleton.mp h)
    · exact absurd h List.not_mem_nil

theorem place?_pathAlong (rooted : Bool) (hnames : ∀ name ∈ names, IsName name)
    (hne : names ≠ []) :
    d.place? (pathAlong rooted names) = d.walk (if rooted then [] else d.current) names := by
  unfold place?
  rw [isEmpty_pathAlong rooted hnames hne, if_neg Bool.false_ne_true,
    startsWith_pathAlong rooted hnames hne, pathNames_pathAlong rooted hnames hne,
    endsWith_pathAlong rooted hnames hne]
  exact congrArg _ (List.append_nil names)

/-- Where a path leads to something, the directories that lead to it are there. -/
theorem isDirectory_of_mem_ancestors (h : d.at? path = .ok item) {dir : String}
    (hdir : dir ∈ ancestors path) : d.IsDirectory dir := by
  obtain ⟨place, hplace, -⟩ := at?_eq_ok_iff.mp h
  obtain ⟨names, next, after, hsplit, hne, hnames, rfl⟩ := mem_ancestors hdir
  have hwalk := walk_filter (place?_eq_ok_iff.mp hplace).2
  rw [filter_steps, hsplit] at hwalk
  obtain ⟨middle, hmiddle, hafter⟩ := walk_append_eq_ok.mp hwalk
  refine at?_eq_ok_iff.mpr ⟨middle, ?_, (walk_cons_eq_ok.mp hafter).1⟩
  rwa [place?_pathAlong _ hnames hne]

/-! ### Paths without a way back -/

/-- Every item stands in a directory. -/
def Rooted (d : Disk) : Prop :=
  ∀ name above, (d.item? (name :: above)).isSome → d.item? above = some .directory

theorem Rooted.item?_of_append (hd : d.Rooted) {front : Place} (hne : front ≠ [])
    (h : (d.item? (front ++ place)).isSome) : d.item? place = some .directory := by
  induction front with
  | nil => exact absurd rfl hne
  | cons name front ih =>
      have habove := hd name (front ++ place) h
      cases front with
      | nil => exact habove
      | cons => exact ih (List.cons_ne_nil _ _) (by rw [habove]; rfl)

theorem exists_append_of_walk (hnames : ".." ∉ names) (h : d.walk place names = .ok target) :
    ∃ front, target = front ++ place := by
  induction names generalizing place with
  | nil => exact ⟨[], (Except.ok.inj h).symm⟩
  | cons name rest ih =>
      obtain ⟨front, hfront⟩ := ih (fun hmem => hnames (List.mem_cons_of_mem _ hmem))
        (walk_cons_eq_ok.mp h).2
      have hname : name ≠ ".." := fun hname => hnames (hname ▸ List.mem_cons_self)
      rw [Place.step, if_neg hname] at hfront
      split at hfront
      · exact ⟨front, hfront⟩
      · exact ⟨front ++ [name], by rw [hfront, List.append_assoc]; rfl⟩

/-- A walk without a way back to a file that stands on the disk can be walked there. -/
theorem Rooted.walk (hd : d.Rooted) (hnames : ".." ∉ names) {bytes : ByteArray}
    (hfile : d.item? target = some (.file bytes)) (hfile' : d'.item? target = some (.file bytes))
    (h : d'.walk place names = .ok target) : d.walk place names = .ok target := by
  induction names generalizing place with
  | nil => exact h
  | cons name rest ih =>
      obtain ⟨hplace, hrest⟩ := walk_cons_eq_ok.mp h
      obtain ⟨front, rfl⟩ := exists_append_of_walk hnames h
      have hfront : front ≠ [] := by
        rintro rfl
        cases hplace.symm.trans hfile'
      exact walk_cons_eq_ok.mpr ⟨hd.item?_of_append hfront (by rw [hfile]; rfl),
        ih (fun hmem => hnames (List.mem_cons_of_mem _ hmem)) hrest⟩

end EditHistory.Disk
