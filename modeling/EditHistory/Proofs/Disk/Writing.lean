/-
What writing at a path leaves of a disk.

Directories are made where nothing is, and so is the file, if there is no file yet where the
path leads.  An attempt that fails leaves the directories it has made, and no file at the path,
so the next one fails in the same way and changes nothing.

A file can only be lost where the path leads to it for the first time once the directories are
made.  `Uncovers` says of a path that it does; one that was looked up before that moment was
found to lead nowhere.
-/
import EditHistory.Proofs.Disk.Ways

namespace EditHistory.Disk

variable {d d' d'' : Disk} {path text : String} {paths : List String} {place : Place}
  {item : Item} {bytes : ByteArray} {made : Bool}

/-- Whatever stood somewhere stands there still. -/
def KeepsItems (d d' : Disk) : Prop :=
  ∀ place item, d.item? place = some item → d'.item? place = some item

/-! ### Making directories -/

/-- Nothing is changed but that directories stand where nothing was. -/
structure MakesDirectories (d d' : Disk) : Prop where
  current : d'.current = d.current
  item? : ∀ place, d'.item? place = d.item? place ∨
    d.item? place = none ∧ d'.item? place = some .directory

namespace MakesDirectories

theorem refl (d : Disk) : MakesDirectories d d := ⟨rfl, fun _ => .inl rfl⟩

theorem trans (h : MakesDirectories d d') (h' : MakesDirectories d' d'') :
    MakesDirectories d d'' where
  current := h'.current.trans h.current
  item? place := by
    rcases h'.item? place with hsame | ⟨hnone, hmade⟩
    · rw [hsame]
      exact h.item? place
    · rcases h.item? place with hsame | ⟨-, hmade'⟩
      · exact .inr ⟨hsame.symm.trans hnone, hmade⟩
      · cases hnone.symm.trans hmade'

theorem put (h : d.item? place = none) : MakesDirectories d (d.put place .directory) where
  current := rfl
  item? other := by
    by_cases hother : other = place
    · subst hother
      have hroot : other ≠ [] := by
        rintro rfl
        cases h
      exact .inr ⟨h, item?_put_self d .directory hroot⟩
    · exact .inl (item?_put_of_ne d .directory hother)

theorem keepsItems (h : MakesDirectories d d') : KeepsItems d d' := by
  intro place item hitem
  rcases h.item? place with hsame | ⟨hnone, -⟩
  · exact hsame.trans hitem
  · cases hnone.symm.trans hitem

/-- No file is made, and none is lost. -/
theorem item?_eq_file_iff (h : MakesDirectories d d') :
    d'.item? place = some (.file bytes) ↔ d.item? place = some (.file bytes) := by
  rcases h.item? place with hsame | ⟨hnone, hmade⟩
  · rw [hsame]
  · rw [hnone, hmade]
    exact iff_of_false nofun nofun

theorem keepsDirectories (h : MakesDirectories d d') : KeepsDirectories d d' :=
  ⟨h.current, fun place => h.keepsItems place .directory⟩

end MakesDirectories

theorem makesDirectories_makeDirectories (h : (files.makeDirectories paths).run d = (made, d')) :
    MakesDirectories d d' := by
  induction paths generalizing d with
  | nil =>
      obtain rfl : d = d' := (Prod.mk.inj h).2
      exact .refl d
  | cons path rest ih =>
      rcases makeDirectories_cases h with ⟨d₁, rfl | hfirst, -, hrest⟩ | ⟨-, rfl⟩
      · exact ih hrest
      · obtain ⟨place, -, hnone, rfl⟩ := makeDirectory?_eq_some_iff.mp hfirst
        exact (MakesDirectories.put hnone).trans (ih hrest)
      · exact .refl d'

/-- A second time nothing is made, and what was in the way is there still. -/
theorem makeDirectories_again (h : (files.makeDirectories paths).run d = (made, d')) :
    (files.makeDirectories paths).run d' = (made, d') := by
  induction paths generalizing d with
  | nil => exact congrArg (fun made => (made, d')) (Prod.mk.inj h).1
  | cons path rest ih =>
      rcases makeDirectories_cases h with ⟨d₁, -, hpath, hrest⟩ | ⟨-, rfl⟩
      · have hkept := hpath.kept (makesDirectories_makeDirectories hrest).keepsDirectories
        rw [makeDirectories_cons, isDirectory_iff.mpr hkept, makeDirectory?_of_at? hkept]
        exact ih hrest
      · exact h

/-! ### Attempts to write -/

/-- Whether a file can be written is decided once the directories are made. -/
theorem writable_iff (h : (files.makeDirectories (ancestors path)).run d = (made, d')) :
    d.Writable path ↔ made = true ∧
      ∃ place, d'.place? path = .ok place ∧ d'.item? place ≠ some .directory := by
  unfold Writable
  rw [h]
  constructor
  · rintro ⟨_, place, ⟨⟩, hplace⟩
    exact ⟨rfl, place, hplace⟩
  · rintro ⟨rfl, place, hplace⟩
    exact ⟨d', place, rfl, hplace⟩

/-- Where nothing can be written, what directories can be made are made, and nothing else. -/
theorem writeText_of_not_writable (hd : ¬d.Writable path)
    (h : (files.makeDirectories (ancestors path)).run d = (made, d')) (text : String) :
    (files.writeText path text).run d = (false, d') := by
  rw [writable_iff h, not_and] at hd
  rw [writeText_run h]
  split
  · rename_i hmade
    rw [attempt, write?_eq_none (hd hmade)]
  · rfl

/-- It cannot be written there afterwards either. -/
theorem not_writable_again (hd : ¬d.Writable path)
    (h : (files.makeDirectories (ancestors path)).run d = (made, d')) : ¬d'.Writable path := by
  rwa [writable_iff (makeDirectories_again h), ← writable_iff h]

/-- Nor does the path lead to a file then, which could be written over. -/
theorem not_file_of_not_writable (hd : ¬d.Writable path) : d.at? path ≠ .ok (.file bytes) := by
  intro hat
  obtain ⟨place, hplace, hitem⟩ := at?_eq_ok_iff.mp hat
  have hdirectories : (files.makeDirectories (ancestors path)).run d = (true, d) :=
    makeDirectories_of_isDirectory fun _ => isDirectory_of_mem_ancestors hat
  refine hd ((writable_iff hdirectories).mpr ⟨rfl, place, hplace, ?_⟩)
  rw [hitem]
  exact nofun

/-! ### Files that come to light -/

/-- The path leads to nothing, and to this file once the directories that lead to it are made. -/
def Uncovers (path : String) (bytes : ByteArray) (d : Disk) : Prop :=
  d.Missing path ∧ ∃ d', (files.makeDirectories (ancestors path)).run d = (true, d') ∧
    d'.at? path = .ok (.file bytes)

/-- Where items stand in directories, only a path that has a way back can do that. -/
theorem Rooted.not_uncovers (hd : d.Rooted) (hpath : ".." ∉ pathNames path) :
    ¬d.Uncovers path bytes := by
  rintro ⟨hmissing, d', hmade, hat⟩
  obtain ⟨place, hplace, hfile'⟩ := at?_eq_ok_iff.mp hat
  have hmakes := makesDirectories_makeDirectories hmade
  have hfile := hmakes.item?_eq_file_iff.mp hfile'
  obtain ⟨hnonempty, hwalk'⟩ := place?_eq_ok_iff.mp hplace
  have hsteps : ".." ∉ steps path := fun hmem => (mem_steps hmem).elim hpath nofun
  have hwalk := hd.walk hsteps hfile hfile' hwalk'
  rw [start, hmakes.current] at hwalk
  exact hmissing _ (at?_eq_ok_iff.mpr ⟨place, place?_eq_ok_iff.mpr ⟨hnonempty, hwalk⟩, hfile⟩)

/-- A file that is written after the directories replaces what they have uncovered, and nothing else. -/
theorem keepsItems_written_iff (hd : d.Missing path)
    (hmade : (files.makeDirectories (ancestors path)).run d = (true, d'))
    (hplace : d'.place? path = .ok place) (hno : d'.item? place ≠ some .directory) :
    KeepsItems d (d'.put place (.file bytes)) ↔ ∀ lost, d.Uncovers path lost → lost = bytes := by
  have hmakes := makesDirectories_makeDirectories hmade
  have hroot : place ≠ [] := by
    rintro rfl
    exact hno rfl
  constructor
  · rintro hkeeps lost ⟨-, d'', hmade', hat⟩
    obtain rfl : d' = d'' := (Prod.mk.inj (hmade.symm.trans hmade')).2
    obtain ⟨place', hplace', hlost⟩ := at?_eq_ok_iff.mp hat
    obtain rfl : place = place' := Except.ok.inj (hplace.symm.trans hplace')
    have hkept := hkeeps place _ (hmakes.item?_eq_file_iff.mp hlost)
    rw [item?_put_self d' _ hroot] at hkept
    exact (Item.file.inj (Option.some.inj hkept)).symm
  · intro hlost other item hitem
    have hitem' := hmakes.keepsItems other item hitem
    by_cases hother : other = place
    · subst hother
      cases item with
      | directory => exact absurd hitem' hno
      | file lost =>
          have huncovers : d.Uncovers path lost :=
            ⟨hd, d', hmade, at?_eq_ok_iff.mpr ⟨other, hplace, hitem'⟩⟩
          rw [hlost lost huncovers]
          exact item?_put_self d' _ hroot
    · rwa [item?_put_of_ne d' _ hother]

end EditHistory.Disk
