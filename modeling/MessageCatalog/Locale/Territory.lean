/-
# `MessageCatalog.Locale.Territory` — territories

A territory is given by an ISO 3166 code of two letters.  Any two ASCII
letters are accepted, in either case and with blank space around them; the
code is held in upper case.
-/
import MessageCatalog.Text.Blank

namespace MessageCatalog

/-- A territory, by its code of two upper-case letters. -/
structure Territory where
  code : String
deriving DecidableEq, Repr

/-- The territory with the given code. -/
def Territory.ofCode? (code : List Char) : Option Territory :=
  match trimBlank code with
  | [a, b] =>
    if a.isAlpha && b.isAlpha then some ⟨String.ofList [a.toUpper, b.toUpper]⟩ else none
  | _ => none

end MessageCatalog
