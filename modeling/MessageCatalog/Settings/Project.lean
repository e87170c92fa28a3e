/-
# `MessageCatalog.Settings.Project` — the settings of a project

The settings of a project are in a file in its directory; without that file
they are the default ones.  A configuration holds the settings of a run.
Settings that are not valid never replace those that are in force.
-/
import MessageCatalog.FileSystem.Basic
import MessageCatalog.Settings.Basic

namespace MessageCatalog

/-- Why settings cannot be used. -/
inductive SettingsError where
  | invalid (faults : List SettingsFault)
  | unreadable (fault : FileFault)
  | malformed
deriving DecidableEq, Repr

namespace SettingsError

/-- Faults as a numbered list. -/
def numbered (faults : List SettingsFault) : String :=
  "\n".intercalate (faults.zipIdx.map fun (fault, index) =>
    "  " ++ toString (index + 1) ++ ". " ++ fault.field ++ " - " ++ fault.message)

/-- The text of an error, without the words of the surroundings. -/
def message : SettingsError → String
  | invalid faults => "Configuration validation failed:\n" ++ numbered faults
  | unreadable _ => "Failed to load configuration file"
  | malformed => "Failed to parse configuration"

/-- What the surroundings say. -/
def cause? : SettingsError → Option FileFault
  | unreadable fault => some fault
  | invalid _ | malformed => none

end SettingsError

/-- The name of the file with the settings of a project. -/
def settingsFileName : Path := ⟨".linguist-qm.json"⟩

/-- Passes on settings that are valid. -/
def Settings.checked (settings : Settings) : Except SettingsError Settings :=
  if settings.faults.isEmpty then .ok settings else .error (.invalid settings.faults)

/-- The settings in force, and the directory they were looked for in. -/
structure Configuration where
  settings : Settings := {}
  root : Option Path := none
deriving DecidableEq, Inhabited, Repr

namespace Configuration

/-- The settings in the file of a project. -/
def readSettings {m : Type → Type} [Monad m] [FileSystem m] (root : Path) :
    m (Except SettingsError Settings) := do
  let path := root.join settingsFileName
  if ← FileSystem.isFile path then
    match ← FileSystem.readText path with
    | .error fault => return .error (.unreadable fault)
    | .ok text =>
      match Settings.parse? text with
      | some settings => return .ok settings
      | none => return .error .malformed
  else return .ok {}

/-- The configuration of a project, or the default one. -/
def load {m : Type → Type} [Monad m] [FileSystem m] (root : Option Path) :
    m (Except SettingsError Configuration) := do
  let settings ← match root with
    | some directory => readSettings directory
    | none => pure (.ok {})
  return (settings.bind Settings.checked).map fun settings => { settings, root }

/-- The configuration with other settings. -/
def update (configuration : Configuration) (settings : Settings) :
    Except SettingsError Configuration :=
  settings.checked.map fun settings => { configuration with settings }

end Configuration

end MessageCatalog
