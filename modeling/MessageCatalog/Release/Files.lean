/-
# `MessageCatalog.Release.Files` — releasing files

Catalogs are read from files in JSON and released to files beside them, or
all together to a single file.  The first error ends a run; the remarks that
were made until then are kept.
-/
import MessageCatalog.Catalog.Interchange
import MessageCatalog.Catalog.Merge
import MessageCatalog.FileSystem.Basic
import MessageCatalog.Release.Basic

namespace MessageCatalog

/-! ## Errors -/

/-- Why files cannot be released or decoded. -/
inductive ReleaseError where
  | unreadable (path : Path) (fault : FileFault)
  | unwritable (path : Path) (fault : FileFault)
  /-- The file is no catalog. -/
  | malformed (path : Path)
  /-- The file is no compiled catalog. -/
  | undecodable (path : Path) (error : Compiled.Error)
  | unencodable (error : Compiled.Error)
  | noInput
deriving DecidableEq, Repr

namespace ReleaseError

/-- The text of an error, without the words of the surroundings. -/
def message : ReleaseError → String
  | unreadable path _ => "Cannot read '" ++ path.text ++ "'"
  | unwritable path _ => "Cannot write '" ++ path.text ++ "'"
  | malformed path => "Invalid catalog '" ++ path.text ++ "'"
  | undecodable path error => "Cannot decode '" ++ path.text ++ "': " ++ error.message
  | unencodable error => error.message
  | noInput => "No input catalogs given"

/-- What the surroundings say. -/
def cause? : ReleaseError → Option FileFault
  | unreadable _ fault | unwritable _ fault => some fault
  | _ => none

end ReleaseError

/-! ## Runs -/

/-- Work that makes remarks and may fail. -/
abbrev Run (m : Type → Type) := ExceptT ReleaseError (StateT (List Remark) m)

namespace Run

variable {m : Type → Type} [Monad m] [FileSystem m]

/-- Makes some remarks. -/
def remark (remarks : List Remark) : Run m Unit := modify fun earlier => earlier ++ remarks

/-- The result of a run and the remarks it made. -/
def outcome {α : Type} (work : Run m α) : m (Except ReleaseError α × List Remark) :=
  StateT.run (ExceptT.run work) []

/-- Passes on what was found, or fails. -/
def orFail {α ε : Type} (error : ε → ReleaseError) : Except ε α → Run m α
  | .ok value => pure value
  | .error e => throw (error e)

/-- Reads a catalog. -/
def loadCatalog (path : Path) : Run m Catalog := do
  let text ← orFail (.unreadable path) (← FileSystem.readText (m := m) path)
  match Catalog.parse? text with
  | some catalog => return catalog
  | none => throw (.malformed path)

/-- Writes a catalog. -/
def saveCatalog (catalog : Catalog) (path : Path) : Run m Unit := do
  orFail (.unwritable path) (← FileSystem.writeText (m := m) path catalog.fileText)

/-- Releases a catalog, read from one file, to another one. -/
def releaseTo (catalog : Catalog) (file output : Path) (settings : Settings) : Run m Unit := do
  let (catalog, remarks) := catalog.settleLanguage settings.targetLanguage file
  remark remarks
  let released :=
    catalog.release settings.options settings.removeIdentical settings.verbose file
  remark released.remarks
  let bytes ← orFail .unencodable released.bytes
  orFail (.unwritable output) (← FileSystem.writeBytes (m := m) output bytes)

/-- Releases every file beside itself. -/
def releaseEach (settings : Settings) (inputs : List Path) : Run m (List Path) :=
  inputs.mapM fun input => do
    let output := input.withExtension "qm"
    releaseTo (← loadCatalog input) input output settings
    return output

/-- Releases some files, to `output` all together, if it is given.  The
result lists the files that were written.  The first file gives the merged
catalog its name, but it is read last. -/
def releaseFiles (inputs : List Path) (output : Option Path) (settings : Settings) :
    Run m (List Path) :=
  match inputs, output with
  | [], _ => throw .noInput
  | first :: rest, some output => do
    let others ← rest.mapM loadCatalog
    let base ← loadCatalog first
    releaseTo (base.merge others) first output settings
    return [output]
  | inputs, none => releaseEach settings inputs

/-- Decodes a compiled catalog to a file in JSON, beside it unless `output`
is given.  The result is the file that was written. -/
def decompileFile (input : Path) (output : Option Path) : Run m Path := do
  let bytes ← orFail (.unreadable input) (← FileSystem.readBytes (m := m) input)
  let (catalog, remarks) ← orFail (.undecodable input) (decompile bytes)
  remark remarks
  let output := output.getD (input.withExtension "json")
  saveCatalog catalog output
  return output

end Run

end MessageCatalog
