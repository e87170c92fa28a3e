/-
# `MessageCatalog.Catalog.Basic` — catalogs

A catalog is a sequence of entries together with its language, the language
of its source texts, the catalogs it depends on and some extension values.
The passes of this module drop entries or change all of them.
-/
import MessageCatalog.Catalog.Entry

namespace MessageCatalog

/-- What the references of a catalog are relative to. -/
inductive LocationKind where
  | none
  | relative
  | absolute
deriving DecidableEq, Repr

/-- A catalog. -/
structure Catalog where
  entries : List Entry := []
  language : String := ""
  sourceLanguage : String := ""
  dependencies : List String := []
  extras : TextMap := .empty
  locations : LocationKind := .absolute
deriving DecidableEq, Inhabited

/-- The source text of placeholders in some editable catalogs. -/
def placeholderSource : String := "QT_LINGUIST_INTERNAL_CONTEXT_COMMENT"

/-! ## Entries that a pass drops -/

namespace Entry

/-- The entry is finished. -/
def isFinished (entry : Entry) : Bool := entry.state == .finished

/-- The entry stands for a context. -/
def isContextEntry (entry : Entry) : Bool :=
  entry.source == placeholderSource || entry.isPlaceholder

/-- The only translation is the source text. -/
def isIdentical (entry : Entry) : Bool := entry.translations == [entry.source]

/-- The entry without its translation, and no longer finished. -/
def untranslated (entry : Entry) : Entry :=
  { entry with
    state := if entry.state = .finished then .unfinished else entry.state
    translations := [""] }

/-- The entry with its references as seen from a directory. -/
def resolved (root : Path) (entry : Entry) : Entry :=
  entry.setReferences (entry.references.map fun r => { r with file := root.join r.file })

end Entry

namespace Catalog

/-- Drops the entries of a class. -/
def strip (drops : Entry → Bool) (catalog : Catalog) : Catalog :=
  { catalog with entries := catalog.entries.filter fun entry => !drops entry }

/-- Takes back all translations. -/
def dropTranslations (catalog : Catalog) : Catalog :=
  { catalog with entries := catalog.entries.map Entry.untranslated }

/-- Resolves all references against a directory. -/
def resolveReferences (root : Path) (catalog : Catalog) : Catalog :=
  { catalog with entries := catalog.entries.map (Entry.resolved root) }

/-- Some entry is translated. -/
def isTranslated (catalog : Catalog) : Bool := catalog.entries.any Entry.isTranslated

/-- The first entry of a context and with a comment that shares a reference
with a list. -/
def findByReferences (catalog : Catalog) (context comment : String)
    (references : List Reference) : Option Nat :=
  catalog.entries.findIdx? fun entry =>
    entry.context == context && entry.comment == comment
      && entry.references.any fun known => references.any fun r => r.same known

end Catalog

end MessageCatalog
