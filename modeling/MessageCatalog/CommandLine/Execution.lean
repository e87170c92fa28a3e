/-
# `MessageCatalog.CommandLine.Execution` — running a command

The settings of a run come from the file of the project; options override
them.  The messages of a run are written also when it fails.
-/
import MessageCatalog.CommandLine.Arguments
import MessageCatalog.Diagnostics
import MessageCatalog.Plural.Report
import MessageCatalog.Release.Files
import MessageCatalog.Settings.Project

namespace MessageCatalog.CommandLine

/-- Why a command fails. -/
inductive RunError where
  | settings (error : SettingsError)
  | release (error : ReleaseError)
deriving DecidableEq, Repr

namespace RunError

/-- The text of an error, without the words of the surroundings. -/
def message : RunError → String
  | settings error => error.message
  | release error => error.message

/-- What the surroundings say. -/
def cause? : RunError → Option FileFault
  | settings error => error.cause?
  | release error => error.cause?

end RunError

/-- What a command leaves behind. -/
structure Outcome where
  result : Except RunError Unit
  /-- What is written to the standard output. -/
  output : String := ""
  /-- What is written to the standard error. -/
  messages : String := ""

/-- Some settings with the options of `compile` on top. -/
def CompileArguments.apply (arguments : CompileArguments) (settings : Settings) : Settings :=
  { settings with
    idBased := settings.idBased || arguments.idBased
    saveMode := if arguments.compress then .stripped else settings.saveMode
    ignoreUnfinished := settings.ignoreUnfinished || arguments.noUnfinished
    removeIdentical := settings.removeIdentical || arguments.removeIdentical
    untranslatedPrefix := arguments.markUntranslated.or settings.untranslatedPrefix
    targetLanguage := arguments.targetLanguage.or settings.targetLanguage
    squeezeComments := settings.squeezeComments || arguments.squeezeComments }

/-- Some settings with the options of a command on top. -/
def Command.apply : Command → Settings → Settings
  | .compile arguments, settings => arguments.apply settings
  | .decompile _ _, settings | .pluralInfo, settings => settings

/-- Some settings with the options that concern every command on top.
Silence counts more than loudness. -/
def Invocation.applyVerbosity (invocation : Invocation) (settings : Settings) : Settings :=
  if invocation.silent then { settings with verbose := false }
  else if invocation.verbose then { settings with verbose := true }
  else settings

/-- What is logged when nothing else is said. -/
def Invocation.logFilter (invocation : Invocation) : String :=
  (if invocation.verbose then "info" else "warn") ++ ",linguist_qm::diagnostics=off"

variable {m : Type → Type} [Monad m] [FileSystem m]

/-- The settings of a run.  Without a project they are looked for in
`current`. -/
def Invocation.settings (invocation : Invocation) (current : Path) :
    m (Except SettingsError Settings) := do
  match ← Configuration.load (invocation.project.getD current) with
  | .error e => return .error e
  | .ok configuration =>
    let settings := invocation.command.apply configuration.settings
    return (configuration.update (invocation.applyVerbosity settings)).map Configuration.settings

/-- The messages of some remarks. -/
def messagesOf (verbose : Bool) (remarks : List Remark) : String :=
  (Diagnostics.addAll { verbose } remarks).text

/-- Compiles catalogs. -/
def runCompile (arguments : CompileArguments) (settings : Settings) : m Outcome := do
  let (result, remarks) ←
    (Run.releaseFiles arguments.inputs arguments.output settings).outcome
  return {
    result := (result.map fun _ => ()).mapError .release
    messages := messagesOf settings.verbose remarks }

/-- Decodes a compiled catalog. -/
def runDecompile (input : Path) (output : Option Path) (settings : Settings) : m Outcome := do
  let (result, remarks) ← (Run.decompileFile input output).outcome
  let messages := messagesOf settings.verbose remarks
  match result with
  | .error e => return { result := .error (.release e), messages }
  | .ok written =>
    let notice := if settings.verbose then "Wrote '" ++ written.text ++ "'\n" else ""
    return { result := .ok (), messages := messages ++ notice }

/-- Runs a command. -/
def Invocation.execute (invocation : Invocation) (current : Path) : m Outcome := do
  match invocation.command with
  | .pluralInfo => return { result := .ok (), output := Plural.report }
  | .compile arguments =>
    match ← invocation.settings current with
    | .error e => return { result := .error (.settings e) }
    | .ok settings => runCompile arguments settings
  | .decompile input output =>
    match ← invocation.settings current with
    | .error e => return { result := .error (.settings e) }
    | .ok settings => runDecompile input output settings

end MessageCatalog.CommandLine
