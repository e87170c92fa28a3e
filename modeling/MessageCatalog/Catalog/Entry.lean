/-
# `MessageCatalog.Catalog.Entry` — the entries of a catalog

An entry is one text to be translated.  It is identified by an id, if it has
one, or by its context, its source text and a comment that tells it apart
from other uses of that text.  Its translations are listed by plural form.
References say where in the sources the text occurs.

An entry without an id and a source text is a placeholder: it carries a
comment on its whole context.
-/
import MessageCatalog.Path
import MessageCatalog.Text.Map

namespace MessageCatalog

/-! ## Types -/

/-- How far the translation of an entry has come. -/
inductive EntryState where
  | unfinished
  | finished
  /-- The source text disappeared before the entry was published. -/
  | vanished
  | obsolete
deriving DecidableEq, Repr

/-- The entry is kept for editing only. -/
def EntryState.isRetired : EntryState → Bool
  | vanished | obsolete => true
  | unfinished | finished => false

/-- A place in the sources.  A negative line is unknown. -/
structure Reference where
  file : Path
  line : Int32
deriving DecidableEq, Repr

/-- Two references lead to the same place. -/
def Reference.same (a b : Reference) : Bool := a.file.same b.file && a.line == b.line

/-- An entry of a catalog. -/
structure Entry where
  id : String := ""
  context : String := ""
  source : String := ""
  oldSource : String := ""
  comment : String := ""
  oldComment : String := ""
  userData : String := ""
  extraComment : String := ""
  translatorComment : String := ""
  warning : String := ""
  /-- A translation for every plural form, or a single one. -/
  translations : List String := []
  file : Option Path := none
  line : Int32 := -1
  /-- The line of the entry in the file it was read from. -/
  catalogLine : Int32 := -1
  extraReferences : List Reference := []
  state : EntryState := .unfinished
  plural : Bool := false
  /-- Values that belong to a file format. -/
  extras : TextMap := .empty
  warningOnly : Bool := false
deriving DecidableEq, Inhabited

namespace Entry

/-! ## Translations -/

/-- Some translation has a text. -/
def isTranslated (entry : Entry) : Bool := entry.translations.any fun t => !t.isEmpty

/-- The first translation. -/
def translation (entry : Entry) : String := entry.translations.head?.getD ""

/-- The entry with a single translation. -/
def setTranslation (entry : Entry) (translation : String) : Entry :=
  { entry with translations := [translation] }

/-- The entry only carries a comment on its context. -/
def isPlaceholder (entry : Entry) : Bool := entry.source.isEmpty && entry.id.isEmpty

/-! ## References -/

/-- All references.  Without a first one there are none. -/
def references (entry : Entry) : List Reference :=
  match entry.file with
  | some file => ⟨file, entry.line⟩ :: entry.extraReferences
  | none => []

/-- The entry with other references. -/
def setReferences (entry : Entry) : List Reference → Entry
  | [] => { entry with file := none, line := -1, extraReferences := [] }
  | first :: rest =>
    { entry with file := some first.file, line := first.line, extraReferences := rest }

/-- The entry without references. -/
def clearReferences (entry : Entry) : Entry := entry.setReferences []

/-- The entry with one more reference. -/
def addReference (entry : Entry) (reference : Reference) : Entry :=
  match entry.file with
  | some _ => { entry with extraReferences := entry.extraReferences ++ [reference] }
  | none => { entry with file := some reference.file, line := reference.line }

/-- The entry with a reference that it may already have. -/
def addNewReference (entry : Entry) (reference : Reference) : Entry :=
  if entry.references.any fun known => known.same reference then entry
  else entry.addReference reference

/-! ## Identity in messages -/

/-- A text cut to a number of characters; the cut is marked. -/
def elided (text : String) (length : Nat) : String :=
  if text.length ≤ length then text
  else String.ofList (text.toList.take (length - 5)) ++ "[...]"

/-- The identity of an entry, as messages show it. -/
def label (entry : Entry) : String :=
  entry.context ++ "//" ++ elided entry.source 100
    ++ (if entry.comment.isEmpty then "" else "//" ++ elided entry.comment 30)

end Entry

end MessageCatalog
