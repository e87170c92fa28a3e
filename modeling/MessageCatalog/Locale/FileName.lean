/-
# `MessageCatalog.Locale.FileName` — the language a file name tells

Catalog files are often named for their language: `myapp_de_DE.json`,
`app.pt-PT.json`.  The parts of such a name are separated by underscores
and dots, and the language is the longest rest of the name, from its
beginning or from behind a separator, that is a language code.
-/
import MessageCatalog.Locale.Code
import MessageCatalog.Path

namespace MessageCatalog.Locale

/-- The characters that separate the parts of a file name. -/
def isNameSeparator (c : Char) : Bool := c == '_' || c == '.'

/-- The rests of a name that follow a separator, longest first. -/
def restsBehind : List Char → List (List Char)
  | [] => []
  | c :: rest => if isNameSeparator c then rest :: restsBehind rest else restsBehind rest

/-- The language code that a file name tells, or nothing. -/
def guess (path : Path) : String :=
  match path.fileStem? with
  | none => ""
  | some stem => (((stem :: restsBehind stem).findSome? parse?).map name).getD ""

end MessageCatalog.Locale
