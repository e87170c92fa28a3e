/-
# `MessageCatalog.Compiled.File` — reading a compiled catalog

A file is read block by block.  Every known block sets one part of it, and
unknown blocks are skipped.  A fault in the structure ends the reading;
texts that are not well formed are complained about only when all else is
found sound.
-/
import MessageCatalog.Compiled.ContextTable
import MessageCatalog.Compiled.Record

namespace MessageCatalog.Compiled

/-- A compiled catalog. -/
structure File where
  language : String := ""
  dependencies : List String := []
  /-- The hash and the offset of every record. -/
  slots : List (UInt32 × UInt32) := []
  records : Bytes := []
  contexts : Option ContextTable := none
  /-- The plural rules. -/
  rules : Bytes := []
deriving DecidableEq, Inhabited, Repr

/-- A file as far as it is read. -/
structure Draft where
  file : File := {}
  /-- Some text was not well formed. -/
  invalid : Bool := false

/-- The names of other catalogs, from an offset of their block on. -/
def readNames (offset : Nat) (bytes : Bytes) : Except Error (List Utf16.Reading) :=
  if bytes.isEmpty then .ok []
  else
    match _hname : readText16 offset bytes with
    | .error e => .error e
    | .ok (name, size, rest) =>
      match readNames (offset + size) rest with
      | .error e => .error e
      | .ok names => .ok (name :: names)
termination_by bytes.length
decreasing_by
  have := length_of_readText16 _hname
  have := size_of_readText16 _hname
  omega

/-- Takes a block into a file. -/
def Draft.absorb (draft : Draft) (block : Block) : Except Error Draft :=
  let file := draft.file
  match BlockTag.ofByte? block.tag with
  | none => .ok draft
  | some .language =>
    match Utf8.decode block.payload with
    | some language => .ok { draft with file := { file with language } }
    | none => .ok { draft with invalid := true }
  | some .dependencies => do
    let names ← readNames 0 block.payload
    return {
      file := { file with dependencies := names.map Utf16.Reading.text }
      invalid := draft.invalid || names.any fun name => !name.valid }
  | some .hashes => .ok { draft with file := { file with slots := Bytes.wordPairs32 block.payload } }
  | some .messages => .ok { draft with file := { file with records := block.payload } }
  | some .contexts => do
    let contexts ← ContextTable.parse block.payload
    return { draft with file := { file with contexts := some contexts } }
  | some .pluralRules => .ok { draft with file := { file with rules := block.payload } }

/-- The file with some blocks, where `fault` is what ended their
sequence. -/
def File.ofBlocks (blocks : List Block) (fault : Option Error) : Except Error File := do
  let draft ← blocks.foldlM Draft.absorb {}
  match fault with
  | some e => throw e
  | none => if draft.invalid then throw .invalidText else return draft.file

/-- The file with some bytes. -/
def File.parse (bytes : Bytes) : Except Error File :=
  if magic.isPrefixOf bytes then
    let (blocks, fault) := splitBlocks (bytes.drop magic.length)
    File.ofBlocks blocks fault
  else .error .badMagic

end MessageCatalog.Compiled
