/-
# `MessageCatalog.Settings.Basic` — the settings of a run

A project keeps its settings in a file; the command line overrides them.
Settings are valid when the target language, if one is given, is known, and
when the mark for missing translations, if one is given, can be seen.
-/
import MessageCatalog.Compiled.Selection
import MessageCatalog.Json.Fields
import MessageCatalog.Json.Parser
import MessageCatalog.Locale.Code
import MessageCatalog.Text.Blank

namespace MessageCatalog

/-- The settings of a run. -/
structure Settings where
  /-- Messages are found by their ids. -/
  idBased : Bool := false
  saveMode : Compiled.SaveMode := .everything
  ignoreUnfinished : Bool := false
  /-- Translations that are the source text are dropped. -/
  removeIdentical : Bool := false
  untranslatedPrefix : Option String := none
  verbose : Bool := false
  /-- The language of every catalog, whatever it says itself. -/
  targetLanguage : Option String := none
  squeezeComments : Bool := false
deriving DecidableEq, Inhabited, Repr

/-! ## Validity -/

/-- What is wrong with some settings. -/
inductive SettingsFault where
  | languageEmpty
  | languageUnknown (code : String)
  | markBlank
deriving DecidableEq, Repr

namespace SettingsFault

/-- The field that is wrong. -/
def field : SettingsFault → String
  | languageEmpty | languageUnknown _ => "targetLanguage"
  | markBlank => "untranslatedPrefix"

/-- What is wrong with the field. -/
def message : SettingsFault → String
  | languageEmpty =>
    "The language code cannot be empty. Please specify a code such as \"de\" or \"pt_BR\", "
      ++ "or remove this field"
  | languageUnknown code =>
    "Unknown language code '" ++ code ++ "'. Expected a code such as \"de\" or \"pt_BR\""
  | markBlank =>
    "The prefix consists only of whitespace and would be invisible. "
      ++ "Please use a visible marker (e.g., \"~\")"

/-- The fault on its own. -/
def text (fault : SettingsFault) : String :=
  "Configuration error in '" ++ fault.field ++ "': " ++ fault.message

end SettingsFault

namespace Settings

/-- What is wrong with the target language. -/
def languageFaults : Option String → List SettingsFault
  | none => []
  | some code =>
    if code.isEmpty then [.languageEmpty]
    else if (Locale.parts code).1.isNone then [.languageUnknown code]
    else []

/-- What is wrong with the mark for missing translations. -/
def markFaults : Option String → List SettingsFault
  | none => []
  | some mark => if !mark.isEmpty && (trimBlank mark.toList).isEmpty then [.markBlank] else []

/-- All that is wrong with some settings. -/
def faults (settings : Settings) : List SettingsFault :=
  languageFaults settings.targetLanguage ++ markFaults settings.untranslatedPrefix

/-- How catalogs are compiled under some settings. -/
def options (settings : Settings) : Compiled.Options :=
  { idBased := settings.idBased
    untranslatedPrefix := settings.untranslatedPrefix
    ignoreUnfinished := settings.ignoreUnfinished
    saveMode := settings.saveMode
    squeezeComments := settings.squeezeComments }

end Settings

/-! ## Settings as JSON -/

/-- The name of a save mode. -/
def Compiled.SaveMode.name : Compiled.SaveMode → String
  | everything => "everything"
  | stripped => "stripped"

/-- The save modes by their names. -/
def Compiled.SaveMode.named : List (String × Compiled.SaveMode) :=
  [everything, stripped].map fun mode => (mode.name, mode)

namespace Settings

/-- The names of the fields of settings. -/
def fieldNames : List String :=
  ["idBased", "saveMode", "ignoreUnfinished", "removeIdentical", "untranslatedPrefix", "verbose",
    "targetLanguage", "squeezeComments"]

/-- The settings that a value describes. -/
def ofJson? (value : Json) : Option Settings := do
  let fields ← value.fields? fieldNames
  let flag (name : String) : Option Bool := Json.field? fields name Json.asBool? false
  let text (name : String) : Option (Option String) :=
    Json.field? fields name (Json.orNull? Json.asText?) none
  return {
    idBased := ← flag "idBased"
    saveMode :=
      ← Json.field? fields "saveMode" (Json.asNamed? Compiled.SaveMode.named) .everything
    ignoreUnfinished := ← flag "ignoreUnfinished"
    removeIdentical := ← flag "removeIdentical"
    untranslatedPrefix := ← text "untranslatedPrefix"
    verbose := ← flag "verbose"
    targetLanguage := ← text "targetLanguage"
    squeezeComments := ← flag "squeezeComments" }

/-- The settings that a text writes. -/
def parse? (text : String) : Option Settings := (Json.parse? text).bind ofJson?

end Settings

end MessageCatalog
