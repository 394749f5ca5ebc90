/-
Settings that were saved are loaded, with their limits in order.

Saving writes a text where it can be written, and loading finds that text and reads back what
it was written from.  So all that is lost on the way is what loading changes on purpose.  Limits
that are in order are not changed, so what was loaded once can be saved and loaded for ever.
-/
import Mathlib
import EditHistory.Proofs.Disk
import EditHistory.Proofs.Settings.Order
import EditHistory.Proofs.Settings.Text
import EditHistory.Settings.Store

namespace EditHistory.Settings

variable {s : Settings} {d d' : Disk} {path : String}

/-- Raising limits leaves them in the range of words. -/
theorem InRange.ordered (h : s.InRange) : s.ordered.InRange := by
  have hstrong : Offset.Fits s.ordered.strongLimit := Nat.max_lt.mpr ⟨h.strong, h.soft⟩
  refine ⟨h.soft, hstrong, fun outer houter => ?_⟩
  obtain ⟨own, hown, rfl⟩ := Option.map_eq_some_iff.mp houter
  exact Nat.max_lt.mpr ⟨h.outer own hown, hstrong⟩

/-- The settings that bytes describe, in order; the defaults if they describe none. -/
def ofBytes (bytes : ByteArray) : Settings :=
  (((String.fromUTF8? bytes).bind ofText?).map ordered).getD {}

theorem ofBytes_toText (hs : s.InRange) : ofBytes s.toText.toUTF8 = s.ordered := by
  have htext : String.fromUTF8? s.toText.toUTF8 = some s.toText := dif_pos s.toText.isValidUTF8
  rw [ofBytes, htext, Option.bind_some, ofText?_toText hs]
  rfl

/-- What is found at the path is read, and nothing is changed. -/
theorem load_of_at? {item : Item} (h : d.at? path = .ok item) :
    (load Disk.files path).run d
      = (do return ofFile (← Disk.files.readText path) : StateM Disk Settings).run d := by
  rw [load, StateT.run_bind, Disk.present_of_at? h]
  rfl

/-- The settings of a file are what its bytes describe. -/
theorem load_of_file {bytes : ByteArray} (h : d.at? path = .ok (.file bytes)) :
    (load Disk.files path).run d = (ofBytes bytes, d) := by
  rw [load_of_at? h, StateT.run_bind, Disk.readText_of_file h, ofBytes]
  cases String.fromUTF8? bytes <;> rfl

/-- What is saved where it can be is loaded in order, and can be saved over. -/
theorem loads_saved (hs : s.InRange) (hd : d.Writable path) :
    ∃ d', (s.save Disk.files path).run d = (true, d') ∧
      (load Disk.files path).run d' = (s.ordered, d') ∧ d'.Writable path := by
  obtain ⟨d', hsave, hat, hwritable⟩ := hd.writeText s.toText
  exact ⟨d', hsave, by rw [load_of_file hat, ofBytes_toText hs], hwritable⟩

/--
**Settings are saved and loaded.**  Where a file can be written, settings whose limits are words
can be saved, and what is loaded then are these settings with their limits raised into order.
That is the least way to put them in order without lowering one, and changes nothing exactly if
they are in order already.  To save and to load again what was loaded gives it back.
-/
theorem saved_settings_are_loaded (hs : s.InRange) (hd : d.Writable path) :
    ∃ d', (s.save Disk.files path).run d = (true, d') ∧
      (load Disk.files path).run d' = (s.ordered, d') ∧
      IsLeast {t | s ≤ t ∧ t.Ordered} s.ordered ∧
      (s.ordered = s ↔ s.Ordered) ∧
      ∃ d'', (s.ordered.save Disk.files path).run d' = (true, d'') ∧
        (load Disk.files path).run d'' = (s.ordered, d'') := by
  obtain ⟨d', hsave, hload, hwritable⟩ := loads_saved hs hd
  obtain ⟨d'', hsave', hload', -⟩ := loads_saved hs.ordered hwritable
  rw [ordered_eq_self_iff.mpr s.ordered_ordered] at hload'
  exact ⟨d', hsave, hload, s.isLeast_ordered, ordered_eq_self_iff, d'', hsave', hload'⟩

/--
A strong limit that is too low and no outer limit, in a file whose directory is still to be
made.  The soft limit is the largest word.
-/
theorem saved_settings_are_loaded_unbounded :
    let s : Settings :=
      { softLimit := 0xffffffffffffffff, strongLimit := 7, outerLimit := none, inhibitPoint := true }
    s.InRange ∧ Disk.Writable "d/h" {} ∧
      ∃ d', (s.save Disk.files "d/h").run {} = (true, d') ∧
        (load Disk.files "d/h").run d' = ({ s with strongLimit := 0xffffffffffffffff }, d') := by
  intro s
  have hs : s.InRange := ⟨by decide, by decide, fun _ houter => by cases houter⟩
  have hd : Disk.Writable "d/h" {} := by
    have hnames : pathNames "d/h" = ["d", "h"] := by cbv
    have hancestors : ancestors "d/h" = ["d"] := by
      rw [ancestors, hnames]
      decide +kernel
    have hplace : Disk.place? { items := [(["d"], .directory)] } "d/h" = .ok ["h", "d"] := by
      rw [Disk.place?, hnames]
      cbv
    refine ⟨{ items := [(["d"], .directory)] }, ["h", "d"], ?_, hplace, fun hitem => by cases hitem⟩
    rw [hancestors, Disk.makeDirectories_cons]
    cbv
  obtain ⟨d', hsave, hload, -⟩ := saved_settings_are_loaded hs hd
  exact ⟨hs, hd, d', hsave, hload⟩

end EditHistory.Settings
