/-
# `MessageCatalog.Main` — the program

Reads the command line, runs the command on the files of the computer and
reports what became of it: 0 for success, 1 for a failure and 2 for a
command line that says nothing sensible.
-/
import MessageCatalog.CommandLine.Execution

namespace MessageCatalog

/-- A fault in the words of the computer. -/
def faultOf : IO.Error → FileFault
  | .noFileOrDirectory .. => .notFound
  | e => .other (toString e)

instance : FileSystem IO where
  readBytes path := do
    try
      return .ok (← IO.FS.readBinFile path.text).data.toList
    catch e => return .error (faultOf e)
  writeBytes path content := do
    try
      IO.FS.writeBinFile path.text ⟨content.toArray⟩
      return .ok ()
    catch e => return .error (faultOf e)
  isFile path := do
    try
      return (← (← IO.FS.realPath path.text).metadata).type == .file
    catch _ => return false

namespace CommandLine

/-- How the program is called. -/
def usage : String :=
  "Usage: linguist-qm [--verbose] [--silent] [--project DIR] COMMAND\n"
    ++ "  compile CATALOG... [-o FILE] [--id-based] [--compress] [--no-unfinished]\n"
    ++ "    [--remove-identical] [--mark-untranslated PREFIX] [--target-language CODE]\n"
    ++ "    [--squeeze-comments]\n"
    ++ "  decompile FILE [-o FILE]\n"
    ++ "  plural-info\n"

/-- What is wrong with a command line. -/
def UsageError.message : UsageError → String
  | helpWanted | versionWanted | nothingGiven => ""
  | commandMissing => "a command is required"
  | commandUnknown => "there is no such command"
  | operandMissing => "a file is required"
  | argumentUnknown => "there is no such argument"
  | conflict => "an argument cannot be used with another one, or it is given twice"
  | valueInvalid => "a value is required"
  | valueUnneeded => "a value is given to an option that takes none"

/-- Answers a command line that does not lead to a run. -/
def answer (error : UsageError) : IO UInt32 := do
  match error with
  | .helpWanted =>
    IO.print usage
    return 0
  | .versionWanted =>
    IO.println "linguist-qm"
    return 0
  | error =>
    unless error.message.isEmpty do
      IO.eprintln ("error: " ++ error.message)
    IO.eprint usage
    return 2

/-- Shows what a command leaves behind. -/
def present (outcome : Outcome) : IO UInt32 := do
  IO.print outcome.output
  IO.eprint outcome.messages
  match outcome.result with
  | .ok () => return 0
  | .error error =>
    let cause := match error.cause? with
      | some fault => ": " ++ fault.message
      | none => ""
    IO.eprintln ("linguist-qm: " ++ error.message ++ cause)
    return 1

end CommandLine

end MessageCatalog

/-- The program. -/
def main (arguments : List String) : IO UInt32 := do
  match MessageCatalog.CommandLine.parse arguments with
  | .error error => MessageCatalog.CommandLine.answer error
  | .ok invocation =>
    let outcome ← invocation.execute ⟨"."⟩
    MessageCatalog.CommandLine.present outcome
