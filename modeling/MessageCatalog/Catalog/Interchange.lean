/-
# `MessageCatalog.Catalog.Interchange` — catalogs as JSON

Editable catalogs are files in JSON.  Every field is written, in a fixed
order; in reading, a field that is missing has its default.  Only the two
fields of a reference have to be given.
-/
import MessageCatalog.Catalog.Basic
import MessageCatalog.Json.Fields
import MessageCatalog.Json.Parser
import MessageCatalog.Json.Printer

namespace MessageCatalog

/-! ## Writing -/

/-- The name of a state. -/
def EntryState.name : EntryState → String
  | unfinished => "unfinished"
  | finished => "finished"
  | vanished => "vanished"
  | obsolete => "obsolete"

/-- The states by their names. -/
def EntryState.named : List (String × EntryState) :=
  [unfinished, finished, vanished, obsolete].map fun state => (state.name, state)

/-- The name of a kind of locations. -/
def LocationKind.name : LocationKind → String
  | none => "none"
  | relative => "relative"
  | absolute => "absolute"

/-- The kinds of locations by their names. -/
def LocationKind.named : List (String × LocationKind) :=
  [none, relative, absolute].map fun kind => (kind.name, kind)

/-- A reference as JSON. -/
def Reference.toJson (reference : Reference) : Json :=
  .record [
    ("fileName", .ofText reference.file.text),
    ("lineNumber", .integer reference.line.toInt)]

/-- The fields of an entry. -/
def Entry.members (entry : Entry) : List (String × Json) :=
  [
    ("id", .ofText entry.id),
    ("context", .ofText entry.context),
    ("sourceText", .ofText entry.source),
    ("oldSourceText", .ofText entry.oldSource),
    ("comment", .ofText entry.comment),
    ("oldComment", .ofText entry.oldComment),
    ("userData", .ofText entry.userData),
    ("extraComment", .ofText entry.extraComment),
    ("translatorComment", .ofText entry.translatorComment),
    ("warning", .ofText entry.warning),
    ("translations", .ofTexts entry.translations),
    ("fileName", .ofOption (fun file => .ofText file.text) entry.file),
    ("lineNumber", .integer entry.line.toInt),
    ("tsLineNumber", .integer entry.catalogLine.toInt),
    ("extraRefs", .array (entry.extraReferences.map Reference.toJson)),
    ("type", .ofText entry.state.name),
    ("plural", .boolean entry.plural),
    ("extras", .ofMap entry.extras),
    ("warningOnly", .boolean entry.warningOnly)
  ]

/-- An entry as JSON. -/
def Entry.toJson (entry : Entry) : Json := .record entry.members

/-- The fields of a catalog. -/
def Catalog.members (catalog : Catalog) : List (String × Json) :=
  [
    ("messages", .array (catalog.entries.map Entry.toJson)),
    ("language", .ofText catalog.language),
    ("sourceLanguage", .ofText catalog.sourceLanguage),
    ("dependencies", .ofTexts catalog.dependencies),
    ("extras", .ofMap catalog.extras),
    ("locationsType", .ofText catalog.locations.name)
  ]

/-- A catalog as JSON. -/
def Catalog.toJson (catalog : Catalog) : Json := .record catalog.members

/-! ## Reading -/

/-- The reference that a value describes. -/
def Reference.ofJson? (value : Json) : Option Reference := do
  let fields ← value.fields? ["fileName", "lineNumber"]
  return {
    file := ⟨← Json.required? fields "fileName" Json.asText?⟩
    line := ← Json.required? fields "lineNumber" Json.asInt32? }

/-- The names of the fields of an entry. -/
def Entry.fieldNames : List String :=
  [
    "id", "context", "sourceText", "oldSourceText", "comment", "oldComment", "userData",
    "extraComment", "translatorComment", "warning", "translations", "fileName", "lineNumber",
    "tsLineNumber", "extraRefs", "type", "plural", "extras", "warningOnly"
  ]

/-- The entry that a value describes. -/
def Entry.ofJson? (value : Json) : Option Entry := do
  let fields ← value.fields? fieldNames
  let text (name : String) : Option String := Json.field? fields name Json.asText? ""
  let flag (name : String) : Option Bool := Json.field? fields name Json.asBool? false
  let number (name : String) : Option Int32 := Json.field? fields name Json.asInt32? (-1)
  return {
    id := ← text "id"
    context := ← text "context"
    source := ← text "sourceText"
    oldSource := ← text "oldSourceText"
    comment := ← text "comment"
    oldComment := ← text "oldComment"
    userData := ← text "userData"
    extraComment := ← text "extraComment"
    translatorComment := ← text "translatorComment"
    warning := ← text "warning"
    translations := ← Json.field? fields "translations" (Json.asList? Json.asText?) []
    file := (← Json.field? fields "fileName" (Json.orNull? Json.asText?) none).map Path.mk
    line := ← number "lineNumber"
    catalogLine := ← number "tsLineNumber"
    extraReferences := ← Json.field? fields "extraRefs" (Json.asList? Reference.ofJson?) []
    state := ← Json.field? fields "type" (Json.asNamed? EntryState.named) .unfinished
    plural := ← flag "plural"
    extras := ← Json.field? fields "extras" Json.asMap? .empty
    warningOnly := ← flag "warningOnly" }

/-- The names of the fields of a catalog. -/
def Catalog.fieldNames : List String :=
  ["messages", "language", "sourceLanguage", "dependencies", "extras", "locationsType"]

/-- The catalog that a value describes. -/
def Catalog.ofJson? (value : Json) : Option Catalog := do
  let fields ← value.fields? fieldNames
  return {
    entries := ← Json.field? fields "messages" (Json.asList? Entry.ofJson?) []
    language := ← Json.field? fields "language" Json.asText? ""
    sourceLanguage := ← Json.field? fields "sourceLanguage" Json.asText? ""
    dependencies := ← Json.field? fields "dependencies" (Json.asList? Json.asText?) []
    extras := ← Json.field? fields "extras" Json.asMap? .empty
    locations := ← Json.field? fields "locationsType" (Json.asNamed? LocationKind.named) .absolute }

/-! ## Texts -/

/-- The catalog that a text writes. -/
def Catalog.parse? (text : String) : Option Catalog := (Json.parse? text).bind Catalog.ofJson?

/-- A catalog as the text of a file. -/
def Catalog.fileText (catalog : Catalog) : String := catalog.toJson.pretty ++ "\n"

end MessageCatalog
