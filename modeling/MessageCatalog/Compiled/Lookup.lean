/-
# `MessageCatalog.Compiled.Lookup` — looking up a translation

A translation is looked up by its key and, if it depends on one, by a count.
The records with the hash of the key are tried in their order; the first
that fits and has the plural form of the count is the one.  When there is
none, the look-up is repeated without the comment.
-/
import MessageCatalog.Compiled.File
import MessageCatalog.Plural.Selection

namespace MessageCatalog.Compiled.File

/-- The offsets of the records with a hash.  The slots are in ascending
order of their hashes. -/
def offsetsOf (file : File) (hash : UInt32) : List UInt32 :=
  ((file.slots.dropWhile fun slot => slot.1 < hash).takeWhile fun slot => slot.1 == hash).map
    Prod.snd

/-- The translation that the record at an offset has for a key and a plural
form. -/
def translationAt (file : File) (key : Key) (form : Nat) (offset : UInt32) : Option String :=
  match Record.read file.records offset.toNat with
  | .error _ => none
  | .ok record =>
    if record.fits key then record.translations[form]?.map Utf16.Reading.text else none

/-- The translation for exactly a key and a plural form. -/
def lookupExactly (file : File) (key : Key) (form : Nat) : Option String :=
  (file.offsetsOf key.hash).findSome? (file.translationAt key form)

/-- The plural form of a count; the first one without a count. -/
def formOf (file : File) : Option Nat → Nat
  | some count => Plural.formIndex file.rules count
  | none => 0

/-- The context may have records. -/
def coversContext (file : File) (context : String) : Bool :=
  file.contexts.all fun table => table.contains (Utf8.encode context)

/-- The translation for a key and a count. -/
def lookup (file : File) (key : Key) (count : Option Nat) : Option String :=
  if file.coversContext key.context then
    let form := file.formOf count
    match file.lookupExactly key form with
    | some translation => some translation
    | none =>
      if key.comment.isEmpty then none else file.lookupExactly { key with comment := "" } form
  else none

end MessageCatalog.Compiled.File
