/-
Where the settings are kept.

A place can be named outright.  Otherwise they are kept in the directory for
settings: the one that the environment names by an absolute path, or else
`.config` in the home directory.
-/

namespace EditHistory

/-- What the environment says about places. -/
structure Environment where
  /-- The file of the settings, named outright. -/
  settingsPath : Option String := none
  /-- The directory for settings. -/
  configHome : Option String := none
  /-- The home directory. -/
  home : Option String := none
  /-- The home directory of the account, for an environment that names none. -/
  accountHome : Option String := none
deriving Repr

/-- One path below another; a slash separates them. -/
def joinPath (left right : String) : String :=
  if left.isEmpty ∨ left.endsWith "/" then left ++ right else left ++ "/" ++ right

namespace Environment

/-- The home directory, if there is one. -/
def homeDirectory? (env : Environment) : Option String :=
  (env.home.filter (!·.isEmpty)).or env.accountHome

/-- The directory for settings, if there is one. -/
def configDirectory? (env : Environment) : Option String :=
  (env.configHome.filter (·.startsWith "/")).or (env.homeDirectory?.map (joinPath · ".config"))

/-- The file of the settings; without any directory for it, one in the working directory. -/
def settingsFile (env : Environment) : String :=
  env.settingsPath.getD <|
    match env.configDirectory? with
    | some directory => joinPath (joinPath directory "undolog") "history.json"
    | none => "history.json"

end Environment

end EditHistory
