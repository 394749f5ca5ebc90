/-
Keeping settings in a file.

Loading always gives settings whose limits are in order.  A file that is there is
never written to, whatever is wrong with it; only where there is nothing, the
defaults are written for the user to find.
-/
import EditHistory.Files
import EditHistory.Settings.Text

namespace EditHistory

namespace Settings

variable {m : Type → Type} [Monad m]

/-- Writes the settings to a file; answers whether that went well. -/
def save (files : Files m) (path : String) (s : Settings) : m Bool := files.writeText path s.toText

/-- The settings of a file that was read, or failed to be. -/
def ofFile : Except ReadError String → Settings
  | .ok text => ((ofText? text).map ordered).getD {}
  | .error _ => {}

/-- Loads the settings of a file, which is made with the defaults if there is none. -/
def load (files : Files m) (path : String) : m Settings := do
  if ← files.present path then return ofFile (← files.readText path)
  else
    let standard : Settings := {}
    let _ ← standard.save files path
    return standard

end Settings

end EditHistory
