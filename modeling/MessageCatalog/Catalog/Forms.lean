/-
# `MessageCatalog.Catalog.Forms` — fitting translations to plural forms

A plural entry needs a translation for every form of the language, any other
entry a single one.  Missing translations are added empty, surplus ones are
cut off; both are remarked on, the first only where something is
translated.
-/
import MessageCatalog.Catalog.Basic
import MessageCatalog.Plural.Table
import MessageCatalog.Remark

namespace MessageCatalog

/-- A list cut or filled up to a length. -/
def resized (length : Nat) (translations : List String) : List String :=
  translations.take length ++ List.replicate (length - translations.length) ""

namespace Entry

/-- How many translations an entry needs. -/
def neededForms (forms : Nat) (entry : Entry) : Nat := if entry.plural then forms else 1

/-- The translations of an entry, fitted to a number of forms. -/
def fittedTranslations (forms : Nat) (entry : Entry) : List String :=
  resized (entry.neededForms forms) entry.translations

/-- The entry with its translations fitted. -/
def fitted (forms : Nat) (entry : Entry) : Entry :=
  { entry with translations := entry.fittedTranslations forms }

/-- Translations are cut off. -/
def isCut (forms : Nat) (entry : Entry) : Bool :=
  entry.neededForms forms < entry.translations.length

/-- Empty translations are added to translated forms. -/
def isFilledUp (forms : Nat) (entry : Entry) : Bool :=
  entry.translations.length < entry.neededForms forms && entry.plural && entry.isTranslated

end Entry

namespace Catalog

/-- The number of plural forms of a catalog's language; one if that is not
known. -/
def formCount (catalog : Catalog) : Nat := (Plural.formCount? catalog.language).getD 1

/-- The catalog with all translations fitted. -/
def fitted (catalog : Catalog) : Catalog :=
  { catalog with entries := catalog.entries.map (Entry.fitted catalog.formCount) }

/-- The remarks on fitting a catalog. -/
def fittingRemarks (catalog : Catalog) : List Remark :=
  let forms := catalog.formCount
  let filledUp := catalog.entries.countP (Entry.isFilledUp forms)
  (if catalog.entries.any (Entry.isCut forms) then [.formsRemoved] else [])
    ++ (if filledUp = 0 then [] else [.formsAdded filledUp])

end Catalog

end MessageCatalog
