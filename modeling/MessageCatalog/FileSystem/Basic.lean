/-
# `MessageCatalog.FileSystem.Basic` — files

The work on files needs three operations of its surroundings.  They are the
methods of a class, so that the same work runs on the files of a computer
and on a tree of files in memory.
-/
import MessageCatalog.Path
import MessageCatalog.Text.Utf8

namespace MessageCatalog

/-- Why a file cannot be read or written. -/
inductive FileFault where
  | notFound
  | isDirectory
  | notDirectory
  /-- A name or the whole path is longer than names and paths may be. -/
  | nameTooLong
  /-- The path holds a character that no name can hold. -/
  | malformedName
  /-- The file is no text. -/
  | invalidText
  /-- Anything else, in the words of the surroundings. -/
  | other (message : String)
deriving DecidableEq, Repr

/-- The text of a fault. -/
def FileFault.message : FileFault → String
  | notFound => "No such file or directory"
  | isDirectory => "Is a directory"
  | notDirectory => "Not a directory"
  | nameTooLong => "File name too long"
  | malformedName => "file name contained an unexpected NUL byte"
  | invalidText => "stream did not contain valid UTF-8"
  | other message => message

/-- Surroundings with files. -/
class FileSystem (m : Type → Type) where
  /-- All bytes of a file. -/
  readBytes : Path → m (Except FileFault Bytes)
  /-- Makes a file of some bytes, in place of the one that is there. -/
  writeBytes : Path → Bytes → m (Except FileFault Unit)
  /-- There is a file, and it is no directory. -/
  isFile : Path → m Bool

namespace FileSystem

/-- The text of a file. -/
def readText {m : Type → Type} [Monad m] [FileSystem m] (path : Path) :
    m (Except FileFault String) := do
  match ← readBytes path with
  | .error fault => return .error fault
  | .ok bytes =>
    match Utf8.decode bytes with
    | some text => return .ok text
    | none => return .error .invalidText

/-- Makes a file of a text. -/
def writeText {m : Type → Type} [FileSystem m] (path : Path) (text : String) :
    m (Except FileFault Unit) :=
  writeBytes path (Utf8.encode text)

end FileSystem

end MessageCatalog
