/-
# `MessageCatalog.Json.Printer` — writing values

A value is written without any space, or spread over lines with two spaces
for every level.  Both forms escape quotes, backslashes and the characters
below U+0020, and nothing else.
-/
import MessageCatalog.Json.Value
import MessageCatalog.Text.Hex

namespace MessageCatalog.Json

/-! ## Texts -/

/-- One character inside a text literal. -/
def escaped (c : Char) : List Char :=
  if c = '"' then ['\\', '"']
  else if c = '\\' then ['\\', '\\']
  else if c = '\x08' then ['\\', 'b']
  else if c = '\x0c' then ['\\', 'f']
  else if c = '\n' then ['\\', 'n']
  else if c = '\r' then ['\\', 'r']
  else if c = '\t' then ['\\', 't']
  else if c.toNat < 0x20 then ['\\', 'u', '0', '0', Hex.digit (c.toNat / 16), Hex.digit (c.toNat % 16)]
  else [c]

/-- A text literal.  One that stands for no text is written as a lone
surrogate. -/
def quoted : Option String → List Char
  | some content => '"' :: content.toList.flatMap escaped ++ ['"']
  | none => ['"', '\\', 'u', 'd', '8', '0', '0', '"']

/-! ## Layout -/

/-- How a value is laid out. -/
inductive Layout where
  /-- Without spaces, on one line. -/
  | compact
  /-- Over several lines, at the given level. -/
  | spread (level : Nat)
deriving DecidableEq

namespace Layout

/-- The layout of the parts of a value. -/
def inner : Layout → Layout
  | compact => compact
  | spread level => spread (level + 1)

/-- The start of a line. -/
def lineStart : Layout → List Char
  | compact => []
  | spread level => '\n' :: List.replicate (2 * level) ' '

/-- What stands between the name and the value of a member. -/
def colon : Layout → List Char
  | compact => [':']
  | spread _ => [':', ' ']

end Layout

/-- Written parts between brackets, separated by commas. -/
def bracketed (layout : Layout) (opening closing : Char) (parts : List (List Char)) : List Char :=
  if parts.isEmpty then [opening, closing]
  else
    opening :: ((parts.map fun part => layout.inner.lineStart ++ part).intersperse [',']).flatten
      ++ layout.lineStart ++ [closing]

mutual

/-- The characters of a value. -/
def render (layout : Layout) : Json → List Char
  | .null => ['n', 'u', 'l', 'l']
  | .boolean true => ['t', 'r', 'u', 'e']
  | .boolean false => ['f', 'a', 'l', 's', 'e']
  | .integer value => (toString value).toList
  | .decimal literal => literal.toList
  | .text value => quoted value
  | .array items => bracketed layout '[' ']' (renderItems layout.inner items)
  | .object members => bracketed layout '{' '}' (renderMembers layout.inner members)

/-- The characters of every item of an array. -/
def renderItems (layout : Layout) : List Json → List (List Char)
  | [] => []
  | item :: rest => render layout item :: renderItems layout rest

/-- The characters of every member of an object. -/
def renderMembers (layout : Layout) : List (Option String × Json) → List (List Char)
  | [] => []
  | (name, value) :: rest =>
    (quoted name ++ layout.colon ++ render layout value) :: renderMembers layout rest

end

/-- A value on one line, without spaces. -/
def compact (value : Json) : String := String.ofList (value.render .compact)

/-- A value over several lines, two spaces a level. -/
def pretty (value : Json) : String := String.ofList (value.render (.spread 0))

end MessageCatalog.Json
