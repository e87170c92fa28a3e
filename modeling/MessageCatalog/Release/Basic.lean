/-
# `MessageCatalog.Release.Basic` — from a catalog to a release and back

A catalog is released in four steps: duplicates are folded, translations
that are the source text are dropped if that is wanted, translations are
fitted to the plural forms of the language, and the result is compiled.
-/
import MessageCatalog.Catalog.Duplicates
import MessageCatalog.Catalog.Forms
import MessageCatalog.Compiled.Decode
import MessageCatalog.Compiled.Encode
import MessageCatalog.Locale.FileName
import MessageCatalog.Settings.Basic

namespace MessageCatalog

/-- What came of releasing a catalog. -/
structure Released where
  /-- The catalog as it was compiled. -/
  catalog : Catalog
  remarks : List Remark
  bytes : Except Compiled.Error Bytes

/-- A catalog without duplicates and, if that is wanted, without
translations that are the source text. -/
def Catalog.narrowed (removeIdentical : Bool) (catalog : Catalog) : Catalog :=
  let folded := catalog.foldDuplicates.1
  if removeIdentical then folded.strip Entry.isIdentical else folded

/-- A catalog as it is compiled for a release. -/
def Catalog.prepared (removeIdentical : Bool) (catalog : Catalog) : Catalog :=
  (catalog.narrowed removeIdentical).fitted

/-- Releases a catalog.  The remarks call it by the name of its file. -/
def Catalog.release (options : Compiled.Options) (removeIdentical verbose : Bool) (file : Path)
    (catalog : Catalog) : Released :=
  let (folded, duplicates) := catalog.foldDuplicates
  let prepared := catalog.prepared removeIdentical
  let (compileRemarks, compilation) := Compiled.compile options prepared
  { catalog := prepared
    remarks :=
      folded.duplicateRemarks duplicates file verbose ++ [.updating file.text]
        ++ (if removeIdentical then [.removingIdentical file.text] else [])
        ++ (catalog.narrowed removeIdentical).fittingRemarks ++ compileRemarks
    bytes := compilation.map Compiled.Compilation.bytes }

/-- Decodes a compiled catalog.  When parts of its keys are left out that is
remarked on. -/
def decompile (bytes : Bytes) : Except Compiled.Error (Catalog × List Remark) := do
  let file ← Compiled.File.parse bytes
  let catalog ← file.toCatalog
  return (catalog,
    (if file.contexts.isSome then [.keysIncomplete] else [])
      ++ [.decoded catalog.entries.length catalog.language])

/-- Gives a catalog the language that is set, or else, if it has none, the
one that the name of its file tells. -/
def Catalog.settleLanguage (target : Option String) (file : Path) (catalog : Catalog) :
    Catalog × List Remark :=
  match target with
  | some language => ({ catalog with language }, [])
  | none =>
    if !catalog.language.isEmpty then (catalog, [])
    else
      let language := Locale.guess file
      if language.isEmpty then (catalog, [.languageUnknown file.text])
      else ({ catalog with language }, [.languageGuessed file.text language])

end MessageCatalog
