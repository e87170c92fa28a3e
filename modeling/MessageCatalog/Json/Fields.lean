/-
# `MessageCatalog.Json.Fields` — values that stand for something

Catalogs, entries and settings are records.  A record is read from an
object, where unknown names are skipped and a known name may stand only
once, or from an array, which lists its fields in their order and may stop
early.  A field that is not given takes its default.
-/
import MessageCatalog.Json.Value
import MessageCatalog.Text.Map

namespace MessageCatalog.Json

/-! ## Writing simple values -/

/-- A list of texts. -/
def ofTexts (texts : List String) : Json := .array (texts.map ofText)

/-- Named texts. -/
def ofMap (map : TextMap) : Json :=
  .record (map.entries.map fun (name, value) => (name, ofText value))

/-- A value, or null. -/
def ofOption {α : Type} (ofValue : α → Json) : Option α → Json
  | some value => ofValue value
  | none => .null

/-! ## Reading simple values -/

/-- A text. -/
def asText? : Json → Option String
  | .text content => content
  | _ => none

/-- A truth value. -/
def asBool? : Json → Option Bool
  | .boolean value => some value
  | _ => none

/-- An integer of 32 bits. -/
def asInt32? : Json → Option Int32
  | .integer value =>
    if -2147483648 ≤ value ∧ value ≤ 2147483647 then some (Int32.ofInt value) else none
  | _ => none

/-- A list of values. -/
def asList? {α : Type} (item? : Json → Option α) : Json → Option (List α)
  | .array items => items.mapM item?
  | _ => none

/-- A value, or none when null is given. -/
def orNull? {α : Type} (value? : Json → Option α) : Json → Option (Option α)
  | .null => some none
  | value => (value? value).map some

/-- A member with a name that stands for a text. -/
def named? (member : Option String × Json) : Option (String × Json) :=
  member.1.map fun name => (name, member.2)

/-- A member that is a text with a name. -/
def namedText? (member : Option String × Json) : Option (String × String) := do
  return (← member.1, ← asText? member.2)

/-- Named texts; the last one of a name counts. -/
def asMap? : Json → Option TextMap
  | .object members => (members.mapM namedText?).map TextMap.ofList
  | _ => none

/-- One of some named values, given by its name, or as an object whose only
member has that name and null as its value. -/
def asNamed? {α : Type} (values : List (String × α)) : Json → Option α
  | .text name => name.bind fun name => values.lookup name
  | .object [(name, .null)] => name.bind fun name => values.lookup name
  | _ => none

/-! ## Records -/

/-- The fields that are given, each with its name. -/
def fields? (names : List String) : Json → Option (List (String × Json))
  | .object members => do
    let named ← members.mapM named?
    let known := named.filter fun field => names.contains field.1
    if (known.map Prod.fst).Nodup then some known else none
  | .array items => if items.length ≤ names.length then some (names.zip items) else none
  | _ => none

/-- The value of a field, or its default. -/
def field? {α : Type} (fields : List (String × Json)) (name : String)
    (value? : Json → Option α) (default : α) : Option α :=
  match fields.lookup name with
  | some value => value? value
  | none => some default

/-- The value of a field that has to be given. -/
def required? {α : Type} (fields : List (String × Json)) (name : String)
    (value? : Json → Option α) : Option α :=
  (fields.lookup name).bind value?

end MessageCatalog.Json
