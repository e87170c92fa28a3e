/-
# `MessageCatalog.Plural.Report` — the list of the plural rules

One line for every language of the table, in ascending order: its name and
its code in columns of 40 and 8 characters, then the header of gettext
catalogs.
-/
import MessageCatalog.Plural.Table

namespace MessageCatalog.Plural

/-- A text filled up with spaces to a number of characters. -/
def padded (width : Nat) (text : String) : String :=
  text ++ String.ofList (List.replicate (width - text.length) ' ')

/-- The line of a language in a row. -/
def reportLine (row : Row) (code : String) (territory : Option String) : String :=
  let name := ((Language.ofCode? code.toList).map Language.name).getD "(!!!)"
  let (label, locale) := match territory with
    | some territory => (name ++ " (" ++ territory ++ ")", code ++ "_" ++ territory)
    | none => (name, code)
  padded 40 label ++ " " ++ padded 8 locale ++ " " ++ row.gettext

/-- The lines of all languages, in the order of the table. -/
def reportLines : List String :=
  table.flatMap fun row =>
    row.languages.map fun (code, territory) => reportLine row code territory

/-- The plural rules of all covered languages. -/
def report : String :=
  "\n".intercalate (reportLines.mergeSort fun a b => decide (a ≤ b))

end MessageCatalog.Plural
