/-
# `MessageCatalog.Compiled.Decode` — restoring a catalog

The records of a file become the entries of a catalog again.  Parts of a key
that a record left out are taken from the record in front of it, if that has
the same hash.  All entries are finished.  An entry with several
translations is plural, and so is one whose source text mentions a count, in
a language with a single form.
-/
import MessageCatalog.Catalog.Basic
import MessageCatalog.Compiled.File
import MessageCatalog.Plural.Table
import MessageCatalog.Text.Split

namespace MessageCatalog.Compiled

/-- What stands for the count in a source text. -/
def countMark : String := "%n"

/-- The records of some slots.  `previous` is the slot in front of them with
its record. -/
def readSlots (records : Bytes) (previous : Option (UInt32 × Record)) :
    List (UInt32 × UInt32) → Except Error (List Record)
  | [] => .ok []
  | (hash, offset) :: rest => do
    let record ← Record.read records offset.toNat
    let record := match previous with
      | some (known, earlier) => if known = hash then record.completedFrom earlier else record
      | none => record
    let others ← readSlots records (some (hash, record)) rest
    return record :: others

namespace Record

/-- All translations are well formed. -/
def isValid (record : Record) : Bool := record.translations.all Utf16.Reading.valid

/-- The entry of a record, if its texts are well formed. -/
def toEntry? (singleForm : Bool) (record : Record) : Option Entry := do
  let source ← Utf8.decode (record.source.getD [])
  let context ← Utf8.decode (record.context.getD [])
  let comment ← Utf8.decode (record.comment.getD [])
  if record.isValid then
    return {
      context, source, comment
      translations := record.translations.map Utf16.Reading.text
      state := .finished
      plural := 1 < record.translations.length
        || (singleForm && occursIn countMark.toList source.toList) }
  else none

end Record

/-- The catalog of a file. -/
def File.toCatalog (file : File) : Except Error Catalog := do
  let records ← readSlots file.records none file.slots
  match records.mapM (Record.toEntry? (Plural.formCount? file.language == some 1)) with
  | some entries =>
    return { entries, language := file.language, dependencies := file.dependencies }
  | none => throw .invalidText

/-- The catalog of a compiled one. -/
def decompile (bytes : Bytes) : Except Error Catalog := File.parse bytes >>= File.toCatalog

end MessageCatalog.Compiled
