/-
# `MessageCatalog.Locale.Code` — language codes of catalogs

A catalog names its language by a code such as `de`, `pt_BR` or `fil-PH`: a
language, and after the first underscore or hyphen a territory.  `parts`
resolves the two independently of each other; `Locale.parse?` accepts a
code only when all of it resolves, and `Locale.name` writes the result
canonically, with an underscore.
-/
import MessageCatalog.Locale.Language
import MessageCatalog.Text.Split

namespace MessageCatalog

/-- A language as spoken in a territory. -/
structure Locale where
  language : Language
  territory : Option Territory
deriving DecidableEq, Repr

namespace Locale

/-- The characters that separate the territory from the language. -/
def isSeparator (c : Char) : Bool := c == '_' || c == '-'

/-- The language and the territory of a code.  A language alone gets the
territory assumed for it. -/
def parts (code : String) : Option Language × Option Territory :=
  match splitFirst? isSeparator code.toList with
  | some (language, territory) => (Language.ofCode? language, Territory.ofCode? territory)
  | none =>
    let language := Language.ofCode? code.toList
    (language, language.bind Language.defaultTerritory?)

/-- The canonical code. -/
def name (locale : Locale) : String :=
  match locale.territory with
  | some territory => locale.language.code ++ "_" ++ territory.code
  | none => locale.language.code

/-- The locale of a code, when the language is known and what follows it is
a territory. -/
def parse? (code : List Char) : Option Locale :=
  match splitFirst? isSeparator code with
  | some (language, territory) => do
    let language ← Language.ofCode? language
    let territory ← Territory.ofCode? territory
    return ⟨language, some territory⟩
  | none => do
    let language ← Language.ofCode? code
    return ⟨language, language.defaultTerritory?⟩

end Locale

end MessageCatalog
