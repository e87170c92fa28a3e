/-
# `MessageCatalog.Compiled.Tag` — the tags of blocks and fields

A compiled catalog is a sequence of blocks and a record is a sequence of
fields.  Each begins with a byte that says what it is.
-/

namespace MessageCatalog.Compiled

/-- What a block holds. -/
inductive BlockTag where
  | contexts
  | hashes
  | messages
  | pluralRules
  | dependencies
  | language
deriving DecidableEq, Repr

namespace BlockTag

/-- The byte of a block tag. -/
def byte : BlockTag → UInt8
  | contexts => 0x2F
  | hashes => 0x42
  | messages => 0x69
  | pluralRules => 0x88
  | dependencies => 0x96
  | language => 0xA7

/-- All block tags. -/
def all : List BlockTag := [contexts, hashes, messages, pluralRules, dependencies, language]

/-- The block tag of a byte. -/
def ofByte? (b : UInt8) : Option BlockTag := all.find? fun tag => tag.byte == b

end BlockTag

/-- What a field of a record holds. -/
inductive FieldTag where
  /-- Nothing; the record ends. -/
  | stop
  /-- A source text in 16-bit units, which is no longer used. -/
  | source16
  | translation
  /-- A context in 16-bit units, which is no longer used. -/
  | context16
  | obsolete1
  | source
  | context
  | comment
  | obsolete2
deriving DecidableEq, Repr

namespace FieldTag

/-- The byte of a field tag. -/
def byte : FieldTag → UInt8
  | stop => 1
  | source16 => 2
  | translation => 3
  | context16 => 4
  | obsolete1 => 5
  | source => 6
  | context => 7
  | comment => 8
  | obsolete2 => 9

/-- All field tags. -/
def all : List FieldTag :=
  [stop, source16, translation, context16, obsolete1, source, context, comment, obsolete2]

/-- The field tag of a byte. -/
def ofByte? (b : UInt8) : Option FieldTag := all.find? fun tag => tag.byte == b

end FieldTag

end MessageCatalog.Compiled
