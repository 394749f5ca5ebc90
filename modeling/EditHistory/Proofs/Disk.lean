/-
What was written to a disk is there.

A path is walked over directories, so it leads where it led as long as they stay, and
`KeepsDirectories` says of two disks that they do.  Neither of the two operations that change
a disk ever puts anything in the place of a directory.  So the directories that were made for
a path are still there when its file has been written, and the path leads to that file.
-/
import EditHistory.Disk

namespace EditHistory.Disk

variable {d d' d'' : Disk} {path : String} {paths : List String} {place target : Place} {item : Item}

/-! ### Walking a path -/

/-- Every step of a walk is made from a directory. -/
theorem walk_cons_eq_ok {name : String} {rest : List String} :
    d.walk place (name :: rest) = .ok target ↔
      d.item? place = some .directory ∧ d.walk (place.step name) rest = .ok target := by
  rw [walk]
  cases hitem : d.item? place with
  | none => simp
  | some item =>
      cases item with
      | file bytes => simp
      | directory => simp

/-- Where a path starts. -/
def start (d : Disk) (path : String) : Place := if path.startsWith "/" then [] else d.current

/-- The names that a path is walked by; a slash at its end asks for a directory. -/
def steps (path : String) : List String :=
  pathNames path ++ if path.endsWith "/" then ["."] else []

theorem place?_eq_ok_iff : d.place? path = .ok place ↔
    path.isEmpty = false ∧ d.walk (d.start path) (steps path) = .ok place := by
  unfold place?
  cases path.isEmpty with
  | true => exact iff_of_false nofun nofun
  | false => exact (and_iff_right rfl).symm

/-! ### Directories that stay -/

/-- Where there was a directory there is one, and relative paths start where they did. -/
structure KeepsDirectories (d d' : Disk) : Prop where
  current : d'.current = d.current
  item? : ∀ place, d.item? place = some .directory → d'.item? place = some .directory

namespace KeepsDirectories

theorem refl (d : Disk) : KeepsDirectories d d := ⟨rfl, fun _ h => h⟩

theorem trans (h : KeepsDirectories d d') (h' : KeepsDirectories d' d'') :
    KeepsDirectories d d'' where
  current := h'.current.trans h.current
  item? place hplace := h'.item? place (h.item? place hplace)

/-- Anything can be put where there is no directory. -/
theorem put (h : d.item? target ≠ some .directory) (item : Item) :
    KeepsDirectories d (d.put target item) where
  current := rfl
  item? place hplace := by
    have hne : place ≠ target := by
      rintro rfl
      exact h hplace
    rwa [item?_put_of_ne d item hne]

/-- A walk leads where it led. -/
theorem walk (h : KeepsDirectories d d') {names : List String} {start : Place}
    (hwalk : d.walk start names = .ok place) : d'.walk start names = .ok place := by
  induction names generalizing start with
  | nil => exact hwalk
  | cons name rest ih =>
      obtain ⟨hstart, hrest⟩ := walk_cons_eq_ok.mp hwalk
      exact walk_cons_eq_ok.mpr ⟨h.item? start hstart, ih hrest⟩

theorem place? (h : KeepsDirectories d d') (hplace : d.place? path = .ok place) :
    d'.place? path = .ok place := by
  obtain ⟨hnonempty, hwalk⟩ := place?_eq_ok_iff.mp hplace
  refine place?_eq_ok_iff.mpr ⟨hnonempty, ?_⟩
  rw [start, h.current]
  exact h.walk hwalk

end KeepsDirectories

/-! ### What a path leads to -/

theorem at?_eq_ok_iff :
    d.at? path = .ok item ↔ ∃ place, d.place? path = .ok place ∧ d.item? place = some item := by
  unfold at?
  cases hplace : d.place? path with
  | error e =>
      constructor
      · intro h
        cases h
      · rintro ⟨_, h, -⟩
        cases h
  | ok place =>
      dsimp only [bind, Except.bind]
      constructor
      · intro h
        cases hitem : d.item? place with
        | none => simp [hitem] at h
        | some other =>
            rw [hitem] at h
            exact ⟨place, rfl, hitem.trans (congrArg some (Except.ok.inj h))⟩
      · rintro ⟨_, ⟨⟩, hitem⟩
        rw [hitem]
        rfl

/-- The path leads to nothing. -/
def Missing (path : String) (d : Disk) : Prop := ∀ item, d.at? path ≠ .ok item

theorem missing_or_at? (path : String) (d : Disk) : d.Missing path ∨ ∃ item, d.at? path = .ok item := by
  cases hat : d.at? path with
  | error e => exact .inl fun item h => by cases hat.symm.trans h
  | ok item => exact .inr ⟨item, rfl⟩

/-- The path leads to a directory. -/
def IsDirectory (d : Disk) (path : String) : Prop := d.at? path = .ok .directory

theorem IsDirectory.kept (h : KeepsDirectories d d') (hpath : d.IsDirectory path) :
    d'.IsDirectory path := by
  obtain ⟨place, hplace, hitem⟩ := at?_eq_ok_iff.mp hpath
  exact at?_eq_ok_iff.mpr ⟨place, h.place? hplace, h.item? place hitem⟩

/-- What is put where a path leads, and is no directory yet, is what the path leads to. -/
theorem at?_put (hplace : d.place? path = .ok place) (h : d.item? place ≠ some .directory)
    (item : Item) : (d.put place item).at? path = .ok item := by
  have hroot : place ≠ [] := by
    rintro rfl
    exact h rfl
  exact at?_eq_ok_iff.mpr
    ⟨place, (KeepsDirectories.put h item).place? hplace, item?_put_self d item hroot⟩

/-! ### Making directories -/

/-- A directory is made where the path leads, if there is nothing there. -/
theorem makeDirectory?_eq_some_iff : d.makeDirectory? path = some d' ↔
    ∃ place, d.place? path = .ok place ∧ d.item? place = none ∧ d' = d.put place .directory := by
  unfold makeDirectory?
  cases hplace : d.place? path with
  | error e => exact iff_of_false nofun nofun
  | ok place =>
      change (if (d.item? place).isSome then none else some (d.put place .directory)) = _ ↔ _
      cases hitem : d.item? place with
      | none => simp [hitem, eq_comm]
      | some item => simp [hitem]

theorem keepsDirectories_makeDirectory? (h : d.makeDirectory? path = some d') :
    KeepsDirectories d d' ∧ d'.IsDirectory path := by
  obtain ⟨place, hplace, hnone, rfl⟩ := makeDirectory?_eq_some_iff.mp h
  have hno : d.item? place ≠ some .directory := by
    rw [hnone]
    exact nofun
  exact ⟨.put hno .directory, at?_put hplace hno .directory⟩

/-- There is nothing to be made where something is. -/
theorem makeDirectory?_of_at? (h : d.at? path = .ok item) : d.makeDirectory? path = none := by
  obtain ⟨place, hplace, hitem⟩ := at?_eq_ok_iff.mp h
  unfold makeDirectory?
  rw [hplace]
  show (if (d.item? place).isSome then none else some (d.put place .directory)) = none
  rw [hitem]
  rfl

theorem isDirectory_iff : ((files.isDirectory path).run d).1 = true ↔ d.IsDirectory path := by
  show ((d.at? path).toOption.any _) = true ↔ d.at? path = .ok .directory
  rcases d.at? path with e | ⟨bytes⟩ | _
  · exact ⟨fun h => (by cases h), fun h => (by cases h)⟩
  · exact ⟨fun h => (by cases h), fun h => (by cases h)⟩
  · exact ⟨fun _ => rfl, fun _ => rfl⟩

/-- A directory that is there or can be made is passed over, and nothing is made after another. -/
theorem makeDirectories_cons (path : String) (rest : List String) (d : Disk) :
    (files.makeDirectories (path :: rest)).run d
      = if ((files.isDirectory path).run d).1 || (d.makeDirectory? path).isSome then
          (files.makeDirectories rest).run ((d.makeDirectory? path).getD d)
        else (false, d) := by
  have hmade : (files.makeDirectory path).run d = attempt (makeDirectory? path) d := rfl
  rw [Files.makeDirectories, StateT.run_bind]
  show (StateT.run (files.makeDirectory path >>= _) d) = _
  rw [StateT.run_bind, hmade, attempt]
  cases ((files.isDirectory path).run d).1 <;> cases d.makeDirectory? path <;> rfl

/-- The first directory is there or is made, and then come the others; or nothing is done. -/
theorem makeDirectories_cases {made : Bool} {rest : List String}
    (h : (files.makeDirectories (path :: rest)).run d = (made, d')) :
    (∃ d₁, (d₁ = d ∨ d.makeDirectory? path = some d₁) ∧ d₁.IsDirectory path ∧
      (files.makeDirectories rest).run d₁ = (made, d')) ∨ made = false ∧ d' = d := by
  rw [makeDirectories_cons] at h
  split at h
  · rename_i hpath
    cases hmade : d.makeDirectory? path with
    | none =>
        rw [hmade, Option.isSome_none, Bool.or_false] at hpath
        rw [hmade] at h
        exact .inl ⟨d, .inl rfl, isDirectory_iff.mp hpath, h⟩
    | some d₁ =>
        rw [hmade] at h
        exact .inl ⟨d₁, .inr rfl, (keepsDirectories_makeDirectory? hmade).2, h⟩
  · obtain ⟨rfl, rfl⟩ := Prod.mk.inj h
    exact .inr ⟨rfl, rfl⟩

/-- Where directories were made they are there, and those that were there stay. -/
theorem directories_made (h : (files.makeDirectories paths).run d = (true, d')) :
    KeepsDirectories d d' ∧ ∀ path ∈ paths, d'.IsDirectory path := by
  induction paths generalizing d with
  | nil =>
      obtain rfl : d = d' := (Prod.mk.inj h).2
      exact ⟨.refl d, fun _ hpath => absurd hpath List.not_mem_nil⟩
  | cons path rest ih =>
      rcases makeDirectories_cases h with ⟨d₁, hfirst, hpath, hrest⟩ | ⟨⟨⟩, -⟩
      obtain ⟨hkeeps, hdirectories⟩ := ih hrest
      refine ⟨?_, List.forall_mem_cons.mpr ⟨hpath.kept hkeeps, hdirectories⟩⟩
      rcases hfirst with rfl | hmade
      · exact hkeeps
      · exact (keepsDirectories_makeDirectory? hmade).1.trans hkeeps

/-- Directories that are all there are not made again. -/
theorem makeDirectories_of_isDirectory (h : ∀ path ∈ paths, d.IsDirectory path) :
    (files.makeDirectories paths).run d = (true, d) := by
  induction paths with
  | nil => rfl
  | cons path rest ih =>
      obtain ⟨hpath, hrest⟩ := List.forall_mem_cons.mp h
      rw [makeDirectories_cons, isDirectory_iff.mpr hpath, makeDirectory?_of_at? hpath]
      exact ih hrest

/-! ### Writing a file -/

/--
A file can be written at the path: the directories that lead to it are there or can be made,
and it leads to no directory then.
-/
def Writable (path : String) (d : Disk) : Prop :=
  ∃ d' place, (files.makeDirectories (ancestors path)).run d = (true, d') ∧
    d'.place? path = .ok place ∧ d'.item? place ≠ some .directory

theorem write?_eq_some (hplace : d.place? path = .ok place) (h : d.item? place ≠ some .directory)
    (bytes : ByteArray) : d.write? path bytes = some (d.put place (.file bytes)) := by
  unfold write?
  rw [hplace]
  show (some place).bind _ = _
  rw [Option.bind_some]
  split
  · exact absurd ‹_› h
  · rfl

theorem write?_eq_none
    (h : ¬∃ place, d.place? path = .ok place ∧ d.item? place ≠ some .directory)
    (bytes : ByteArray) : d.write? path bytes = none := by
  unfold write?
  cases hplace : d.place? path with
  | error e => rfl
  | ok place =>
      have hitem : d.item? place = some .directory :=
        Classical.byContradiction fun hno => h ⟨place, hplace, hno⟩
      show (some place).bind _ = _
      rw [Option.bind_some, hitem]

/-- A text is written once the directories are made. -/
theorem writeText_run {made : Bool}
    (h : (files.makeDirectories (ancestors path)).run d = (made, d')) (text : String) :
    (files.writeText path text).run d
      = if made then attempt (write? path text.toUTF8) d' else (false, d') := by
  rw [Files.writeText, StateT.run_bind, h]
  cases made <;> rfl

/-- What is written is what the path leads to, and it can be written over again. -/
theorem Writable.writeText (h : d.Writable path) (text : String) :
    ∃ d', (files.writeText path text).run d = (true, d') ∧
      d'.at? path = .ok (.file text.toUTF8) ∧ d'.Writable path := by
  obtain ⟨d₁, place, hmade, hplace, hno⟩ := h
  obtain ⟨-, hdirectories⟩ := directories_made hmade
  have hkeeps : KeepsDirectories d₁ (d₁.put place (.file text.toUTF8)) := .put hno _
  have hat := at?_put hplace hno (.file text.toUTF8)
  refine ⟨d₁.put place (.file text.toUTF8), ?_, hat, ?_⟩
  · rw [writeText_run hmade, if_pos rfl, attempt, write?_eq_some hplace hno]
  · obtain ⟨place', hplace', hitem⟩ := at?_eq_ok_iff.mp hat
    exact ⟨_, place', makeDirectories_of_isDirectory fun path hpath =>
      (hdirectories path hpath).kept hkeeps, hplace', by rw [hitem]; exact fun h => by cases h⟩

/-! ### Reading a file -/

theorem readText_of_file {bytes : ByteArray} (h : d.at? path = .ok (.file bytes)) :
    (files.readText path).run d
      = ((String.fromUTF8? bytes).elim (.error .notText) .ok, d) := by
  have hread : (files.read path).run d = (.ok bytes, d) := by
    show (d.read path, d) = _
    rw [Disk.read, h]
    rfl
  rw [Files.readText, StateT.run_bind, hread]
  dsimp only [bind]
  cases String.fromUTF8? bytes <;> rfl

theorem readText_of_directory (h : d.at? path = .ok .directory) :
    (files.readText path).run d = (.error isADirectory, d) := by
  have hread : (files.read path).run d = (.error isADirectory, d) := by
    show (d.read path, d) = _
    rw [Disk.read, h]
    rfl
  rw [Files.readText, StateT.run_bind, hread]
  rfl

theorem present_of_at? (h : d.at? path = .ok item) :
    (files.present path).run d = (true, d) := by
  show ((d.at? path).toOption.isSome, d) = _
  rw [h]
  rfl

theorem present_of_missing (h : d.Missing path) : (files.present path).run d = (false, d) := by
  show ((d.at? path).toOption.isSome, d) = _
  cases hat : d.at? path with
  | error e => rfl
  | ok item => exact absurd hat (h item)

end EditHistory.Disk
