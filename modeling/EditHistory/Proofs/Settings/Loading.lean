/-
Loading settles at once, and writes only where it found nothing.

Whatever the files answer, the settings that are loaded have their limits in order: they are
either the defaults or have been put in order.  On a disk nothing is changed if the path leads
to anything.  If it leads to nothing, the directories that lead to it may be made, and then its
file, which reads back as the defaults that were given out.  An attempt that fails leaves a disk
on which the next one fails.

What the path leads to is looked up before the directories are made.  So there is a file to be
lost where the directories uncover one, and nowhere else.
-/
import EditHistory.Proofs.Disk.Writing
import EditHistory.Proofs.Settings.Store

namespace EditHistory.Settings

variable {s : Settings} {d d' : Disk} {path : String}

/-! ### Limits in order -/

theorem ordered_default : ({} : Settings).Ordered where
  soft_le_strong := by decide
  strong_le_outer := by decide

theorem ordered_ofFile (found : Except ReadError String) : (ofFile found).Ordered := by
  cases found with
  | error e => exact ordered_default
  | ok text =>
      rw [ofFile]
      cases ofText? text with
      | none => exact ordered_default
      | some s => exact s.ordered_ordered

/-- The limits are in order whatever the files do. -/
theorem ordered_load {σ : Type} (files : Files (StateM σ)) (path : String) (x : σ) :
    ((load files path).run x).1.Ordered := by
  rw [load, StateT.run_bind]
  rcases (files.present path).run x with ⟨_ | _, x'⟩
  · exact ordered_default
  · exact ordered_ofFile _

/-! ### Loading from a disk -/

/-- The bytes of the file that is made. -/
def standardBytes : ByteArray := ({} : Settings).toText.toUTF8

/-- The settings that are read from an item; a directory describes none. -/
def ofItem : Item → Settings
  | .file bytes => ofBytes bytes
  | .directory => {}

theorem ofItem_standardBytes : ofItem (.file standardBytes) = {} :=
  ofBytes_toText ⟨by decide, by decide, by decide⟩

/-- Where the path leads to something, that is read and nothing is changed. -/
theorem load_of_item {item : Item} (h : d.at? path = .ok item) :
    (load Disk.files path).run d = (ofItem item, d) := by
  cases item with
  | file bytes => exact load_of_file h
  | directory =>
      rw [load_of_at? h, StateT.run_bind, Disk.readText_of_directory h]
      rfl

/-- Where it leads to nothing the defaults are loaded, and an attempt is made to write them. -/
theorem load_of_missing (h : d.Missing path) : (load Disk.files path).run d
    = ({}, ((Disk.files.writeText path ({} : Settings).toText).run d).2) := by
  rw [load, StateT.run_bind, Disk.present_of_missing h]
  rfl

/-- Where that can be done, the file is put in the place that the path leads to. -/
theorem load_of_writable {place : Place} (h : d.Missing path)
    (hmade : (Disk.files.makeDirectories (ancestors path)).run d = (true, d'))
    (hplace : d'.place? path = .ok place) (hno : d'.item? place ≠ some .directory) :
    (load Disk.files path).run d = ({}, d'.put place (.file standardBytes)) := by
  rw [load_of_missing h, Disk.writeText_run hmade, if_pos rfl, Disk.attempt,
    Disk.write?_eq_some hplace hno]
  rfl

/-! ### What loading comes to -/

/-- The settings that are loaded from a disk at a path, and the disk that is left. -/
inductive Loaded (path : String) (d : Disk) : Settings → Disk → Prop
  /-- What the path leads to is read. -/
  | read {item : Item} : d.at? path = .ok item → Loaded path d (ofItem item) d
  /-- It leads to nothing, and the file is made once the directories are. -/
  | written {d' : Disk} {place : Place} : d.Missing path →
      (Disk.files.makeDirectories (ancestors path)).run d = (true, d') →
      d'.place? path = .ok place → d'.item? place ≠ some .directory →
      Loaded path d {} (d'.put place (.file standardBytes))
  /-- It leads to nothing, and some of the directories may be made but the file cannot. -/
  | unwritten {made : Bool} {d' : Disk} : d.Missing path → ¬d.Writable path →
      (Disk.files.makeDirectories (ancestors path)).run d = (made, d') → Loaded path d {} d'

theorem exists_loaded (path : String) (d : Disk) :
    ∃ s d', (load Disk.files path).run d = (s, d') ∧ Loaded path d s d' := by
  rcases Disk.missing_or_at? path d with hmissing | ⟨item, hat⟩
  · rcases hmade : (Disk.files.makeDirectories (ancestors path)).run d with ⟨made, d'⟩
    by_cases hd : d.Writable path
    · obtain ⟨rfl, place, hplace, hno⟩ := (Disk.writable_iff hmade).mp hd
      exact ⟨_, _, load_of_writable hmissing hmade hplace hno, .written hmissing hmade hplace hno⟩
    · refine ⟨_, _, ?_, .unwritten hmissing hd hmade⟩
      rw [load_of_missing hmissing, Disk.writeText_of_not_writable hd hmade]
  · exact ⟨_, _, load_of_item hat, .read hat⟩

namespace Loaded

/-- Loading again gives the same settings and changes nothing. -/
theorem again (h : Loaded path d s d') : (load Disk.files path).run d' = (s, d') := by
  cases h with
  | read hat => exact load_of_item hat
  | written hmissing hmade hplace hno =>
      rw [load_of_item (Disk.at?_put hplace hno _), ofItem_standardBytes]
  | unwritten hmissing hd hmade =>
      have hd' := Disk.not_writable_again hd hmade
      rcases Disk.missing_or_at? path d' with hmissing' | ⟨item, hat⟩
      · rw [load_of_missing hmissing',
          Disk.writeText_of_not_writable hd' (Disk.makeDirectories_again hmade)]
      · cases item with
        | file bytes => exact absurd hat (Disk.not_file_of_not_writable hd')
        | directory => exact load_of_item hat

/-- Nothing is lost but a file that the directories uncover, unless it is as it would be made. -/
theorem keepsItems_iff (h : Loaded path d s d') :
    d.KeepsItems d' ↔ ∀ lost, d.Uncovers path lost → lost = standardBytes := by
  cases h with
  | read hat => exact iff_of_true (fun _ _ => id) fun _ hlost => absurd hat (hlost.1 _)
  | written hmissing hmade hplace hno =>
      exact Disk.keepsItems_written_iff hmissing hmade hplace hno
  | unwritten hmissing hd hmade =>
      refine iff_of_true (Disk.makesDirectories_makeDirectories hmade).keepsItems ?_
      rintro lost ⟨-, _, hmade', hat⟩
      obtain ⟨rfl, rfl⟩ := Prod.mk.inj (hmade.symm.trans hmade')
      exact absurd hat (Disk.not_file_of_not_writable (Disk.not_writable_again hd hmade))

end Loaded

/--
**Loading is stable.**  Whatever stands on the disk, settings with their limits in order are
loaded, and to load them again gives the same and changes nothing.  What the path leads to is
read, and then nothing is changed.  If it leads to nothing, the defaults are loaded; directories
may be made where nothing was, and the file is made if it can be.  Everything on the disk is kept
but a file that those directories uncover, unless it is just what is written.  There is no such
file if items stand in directories and the path has no way back.
-/
theorem loading_is_stable (path : String) (d : Disk) :
    ∃ s d', (load Disk.files path).run d = (s, d') ∧ s.Ordered ∧
      (load Disk.files path).run d' = (s, d') ∧
      (∀ item, d.at? path = .ok item → s = ofItem item ∧ d' = d) ∧
      (d.Missing path → s = {} ∧ ∃ d₁, d.MakesDirectories d₁ ∧
        (d.Writable path → ∃ place, d₁.place? path = .ok place ∧
          d' = d₁.put place (.file standardBytes)) ∧
        (¬d.Writable path → d' = d₁)) ∧
      (d.KeepsItems d' ↔ ∀ lost, d.Uncovers path lost → lost = standardBytes) ∧
      (d.Rooted → ".." ∉ pathNames path → d.KeepsItems d') := by
  obtain ⟨s, d', hload, hloaded⟩ := exists_loaded path d
  have hordered : s.Ordered := by
    have hall := ordered_load Disk.files path d
    rwa [hload] at hall
  refine ⟨s, d', hload, hordered, hloaded.again, fun item hat => ?_, fun hmissing => ?_,
    hloaded.keepsItems_iff, fun hd hpath => hloaded.keepsItems_iff.mpr fun lost hlost =>
      absurd hlost (hd.not_uncovers hpath)⟩
  · obtain ⟨rfl, rfl⟩ := Prod.mk.inj (hload.symm.trans (load_of_item hat))
    exact ⟨rfl, rfl⟩
  · cases hloaded with
    | read hat => exact absurd hat (hmissing _)
    | written _ hmade hplace hno =>
        exact ⟨rfl, _, Disk.makesDirectories_makeDirectories hmade, fun _ => ⟨_, hplace, rfl⟩,
          fun hd => absurd ((Disk.writable_iff hmade).mpr ⟨rfl, _, hplace, hno⟩) hd⟩
    | unwritten _ hd hmade =>
        exact ⟨rfl, _, Disk.makesDirectories_makeDirectories hmade, fun hd' => absurd hd' hd,
          fun _ => rfl⟩

/-- Settings that are still to be made, in a directory beside a broken file, which is kept. -/
theorem loading_is_stable_beside_broken :
    let broken : ByteArray := "\x7b not json".toUTF8
    let d : Disk := { items := [(["history.json"], .file broken)] }
    ∃ d', (load Disk.files "sub/history.json").run d = ({}, d') ∧
      (load Disk.files "sub/history.json").run d' = ({}, d') ∧
      d'.item? ["history.json"] = some (.file broken) := by
  intro broken d
  have hnames : ∀ name ∈ ["sub", "history.json"], IsName name := by decide +kernel
  have hpath : ".." ∉ pathNames "sub/history.json" := by
    have hall : pathNames "sub/history.json" = ["sub", "history.json"] :=
      pathNames_pathAlong false hnames nofun
    rw [hall]
    decide
  have hplace : d.place? "sub/history.json" = d.walk d.current ["sub", "history.json"] :=
    Disk.place?_pathAlong false hnames nofun
  have hmissing : d.Missing "sub/history.json" := by
    intro item hat
    obtain ⟨_, hplace', -⟩ := Disk.at?_eq_ok_iff.mp hat
    cases hplace.symm.trans hplace'
  have hrooted : d.Rooted := by
    intro name above hitem
    cases above with
    | nil => rfl
    | cons next rest => simp [d, Disk.item?, List.lookup] at hitem
  obtain ⟨s, d', hload, -, hagain, -, hmade, -, hkeeps⟩ := loading_is_stable "sub/history.json" d
  obtain ⟨rfl, -⟩ := hmade hmissing
  exact ⟨d', hload, hagain, hkeeps hrooted hpath _ _ rfl⟩

/--
The same file, named by way of a directory that is still to be made: the path leads to nothing,
the directory uncovers the file, and the defaults are written over it.
-/
theorem loading_overwrites_uncovered_file :
    let broken : ByteArray := "\x7b not json".toUTF8
    let d : Disk := { items := [(["history.json"], .file broken)] }
    ∃ d', (load Disk.files "sub/../history.json").run d = ({}, d') ∧
      d.at? "history.json" = .ok (.file broken) ∧
      d'.at? "history.json" = .ok (.file standardBytes) ∧
      broken ≠ standardBytes ∧ ¬d.KeepsItems d' := by
  intro broken d
  let d₁ : Disk := d.put ["sub"] .directory
  have hnames : ∀ name ∈ ["sub", "..", "history.json"], IsName name := by decide +kernel
  have hlong (e : Disk) : e.place? "sub/../history.json"
      = e.walk e.current ["sub", "..", "history.json"] := Disk.place?_pathAlong false hnames nofun
  have hshort (e : Disk) : e.place? "history.json" = e.walk e.current ["history.json"] :=
    Disk.place?_pathAlong false (show ∀ name ∈ ["history.json"], IsName name by decide +kernel)
      nofun
  have hsub : d.place? "sub" = .ok ["sub"] :=
    Disk.place?_pathAlong false (show ∀ name ∈ ["sub"], IsName name by decide +kernel) nofun
  have hback : d₁.place? "sub/.." = .ok [] :=
    Disk.place?_pathAlong false (show ∀ name ∈ ["sub", ".."], IsName name by decide +kernel) nofun
  have hancestors : ancestors "sub/../history.json" = ["sub", "sub/.."] := by
    have hall : pathNames "sub/../history.json" = ["sub", "..", "history.json"] :=
      pathNames_pathAlong false hnames nofun
    rw [ancestors, hall]
    decide +kernel
  have hmissing : d.Missing "sub/../history.json" := by
    intro item hat
    obtain ⟨_, hplace, -⟩ := Disk.at?_eq_ok_iff.mp hat
    cases (hlong d).symm.trans hplace
  have hmade : (Disk.files.makeDirectories (ancestors "sub/../history.json")).run d
      = (true, d₁) := by
    have hfirst : d.makeDirectory? "sub" = some d₁ :=
      Disk.makeDirectory?_eq_some_iff.mpr ⟨["sub"], hsub, rfl, rfl⟩
    have hsecond : d₁.IsDirectory "sub/.." := Disk.at?_eq_ok_iff.mpr ⟨[], hback, rfl⟩
    rw [hancestors, Disk.makeDirectories_cons, hfirst, Option.isSome_some, Bool.or_true,
      if_pos rfl]
    exact Disk.makeDirectories_of_isDirectory (List.forall_mem_singleton.mpr hsecond)
  have hne : broken ≠ standardBytes := by decide +kernel
  refine ⟨_, load_of_writable hmissing hmade (hlong d₁) nofun,
    Disk.at?_eq_ok_iff.mpr ⟨_, hshort d, rfl⟩,
    Disk.at?_eq_ok_iff.mpr ⟨["history.json"], hshort _, rfl⟩, hne, fun hkeeps => ?_⟩
  have hkept := hkeeps ["history.json"] (.file broken) rfl
  exact hne (Item.file.inj (Option.some.inj hkept)).symm

end EditHistory.Settings
