/-
# `MessageCatalog.Json.Value` — the values of the interchange notation

Editable catalogs and settings are exchanged as JSON.  A value here holds
what a reader can tell apart.  A number is an integer or any other literal,
kept as written.  A text literal may escape a surrogate without its
partner; it is well formed, but it stands for no text, and is held as
`none`.  An object keeps its members as they came, repeated names included.
-/

namespace MessageCatalog

/-- A JSON value. -/
inductive Json where
  | null
  | boolean (value : Bool)
  /-- A number without a fraction and an exponent. -/
  | integer (value : Int)
  /-- Any other number, as written. -/
  | decimal (literal : String)
  /-- A text literal and the text it stands for, if it stands for one. -/
  | text (value : Option String)
  | array (items : List Json)
  | object (members : List (Option String × Json))
deriving Inhabited

namespace Json

/-- A text. -/
def ofText (text : String) : Json := .text (some text)

/-- An object with the given members. -/
def record (members : List (String × Json)) : Json :=
  .object (members.map fun (name, value) => (some name, value))

end Json

end MessageCatalog
