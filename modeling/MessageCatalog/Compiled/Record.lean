/-
# `MessageCatalog.Compiled.Record` — the records of a compiled catalog

A record lists the translations of a message and as much of its key as a
look-up needs, and ends with a tag of its own.  It is read field by field,
and what it holds is the sum of its fields: all translations in their order
and the last field of every other kind.
-/
import MessageCatalog.Compiled.Block
import MessageCatalog.Compiled.Hash
import MessageCatalog.Compiled.Tag
import MessageCatalog.Text.Utf16
import MessageCatalog.Text.Utf8

namespace MessageCatalog.Compiled

/-! ## Keys -/

/-- What a record is found by. -/
structure Key where
  context : String
  source : String
  comment : String
deriving DecidableEq, Repr

namespace Key

/-- The hash of a key. -/
def hash (key : Key) : UInt32 := recordHash (Utf8.encode key.source) (Utf8.encode key.comment)

/-- The order of the records: by hash, then by the bytes of the context, of
the source text and of the comment. -/
def order : Key → Key → Ordering :=
  compareLex (compareOn hash) <|
    compareLex (compareOn fun key => Utf8.encode key.context) <|
      compareLex (compareOn fun key => Utf8.encode key.source)
        (compareOn fun key => Utf8.encode key.comment)

end Key

/-! ## Levels -/

/-- How much of a key two records share, or how much of it is written. -/
inductive Level where
  | nothing
  | hash
  | context
  | source
  | comment
deriving DecidableEq, Repr

namespace Level

/-- The number of the parts of a key at a level. -/
def rank : Level → Nat
  | nothing => 0
  | hash => 1
  | context => 2
  | source => 3
  | comment => 4

/-- The next level; behind the last one there is none. -/
def next : Level → Level
  | nothing => hash
  | hash => context
  | context => source
  | source | comment => comment

/-- The deeper of two levels. -/
def deeper (a b : Level) : Level := if a.rank ≤ b.rank then b else a

end Level

/-- The level up to which two keys agree. -/
def Key.shared (a b : Key) : Level :=
  if a.hash ≠ b.hash then .nothing
  else if a.context ≠ b.context then .hash
  else if a.source ≠ b.source then .context
  else if a.comment ≠ b.comment then .source
  else .comment

/-! ## Writing -/

/-- The parts of a key that are written at a level.  The hash is not part of
a record. -/
def Key.writtenParts (key : Key) : Level → List (FieldTag × Bytes)
  | .nothing | .hash => []
  | .context => [(.context, Utf8.encode key.context)]
  | .source => [(.source, Utf8.encode key.source), (.context, Utf8.encode key.context)]
  | .comment =>
    [(.comment, Utf8.encode key.comment), (.source, Utf8.encode key.source),
      (.context, Utf8.encode key.context)]

/-- The bytes of a record. -/
def writeRecord (key : Key) (translations : List String) (level : Level) : Except Error Bytes := do
  let translations := translations.map fun t => (FieldTag.translation, Utf16.encode t)
  let fields ← (translations ++ key.writtenParts level).mapM fun f => tagged f.1.byte f.2
  return fields.flatten ++ [FieldTag.stop.byte]

/-! ## Reading -/

/-- The length that stands for a text that is not there. -/
def noText : UInt32 := 0xFFFFFFFF

/-- A text in 16-bit units, with its length in front, and how many bytes it
took.  A fault is located at `offset`. -/
def readText16 (offset : Nat) (bytes : Bytes) : Except Error (Utf16.Reading × Nat × Bytes) :=
  match Bytes.takeWord32 bytes with
  | none => .error (.truncatedRecord offset)
  | some (length, rest) =>
    if length = noText then .ok (⟨"", true⟩, 4, rest)
    else if length.toNat % 2 ≠ 0 then .error (.oddLength offset length.toNat)
    else
      match Bytes.take? length.toNat rest with
      | none => .error (.truncatedRecord offset)
      | some (text, rest) => .ok (Utf16.decode text, 4 + length.toNat, rest)

/-- A field of a record. -/
inductive Field where
  | translation (reading : Utf16.Reading)
  | source (text : Bytes)
  | context (text : Bytes)
  | comment (text : Bytes)
  /-- A field that is no longer used. -/
  | unused
deriving DecidableEq, Repr

/-- What begins at some place in a record. -/
inductive Step where
  /-- The record ends. -/
  | stop
  /-- A field of so many bytes, and what follows it. -/
  | field (field : Field) (size : Nat) (rest : Bytes)

/-- Reads a field that is bytes with their length in front. -/
def countedField (offset : Nat) (make : Bytes → Field) (bytes : Bytes) : Except Error Step :=
  match Bytes.takeCounted bytes with
  | none => .error (.truncatedRecord offset)
  | some (payload, rest) => .ok (.field (make payload) (5 + payload.length) rest)

/-- Reads what begins at an offset. -/
def readStep (offset : Nat) : Bytes → Except Error Step
  | [] => .error (.truncatedRecord offset)
  | tag :: rest =>
    match FieldTag.ofByte? tag with
    | none => .error (.unknownTag tag offset)
    | some .stop => .ok .stop
    | some .translation =>
      match readText16 offset rest with
      | .error e => .error e
      | .ok (reading, size, rest) => .ok (.field (.translation reading) (1 + size) rest)
    | some .source => countedField offset .source rest
    | some .context => countedField offset .context rest
    | some .comment => countedField offset .comment rest
    | some .source16 | some .context16 => countedField offset (fun _ => .unused) rest
    | some .obsolete1 | some .obsolete2 =>
      match Bytes.take? 4 rest with
      | none => .error (.truncatedRecord offset)
      | some (_, rest) => .ok (.field .unused 5 rest)

theorem length_of_countedField {offset size : Nat} {make : Bytes → Field} {bytes rest : Bytes}
    {field : Field} (h : countedField offset make bytes = .ok (.field field size rest)) :
    rest.length < bytes.length := by
  simp only [countedField] at h
  split at h
  · simp at h
  · next hcounted =>
    simp only [Except.ok.injEq, Step.field.injEq] at h
    have := Bytes.length_of_takeCounted hcounted
    have := congrArg List.length h.2.2
    omega

theorem length_of_readText16 {offset size : Nat} {bytes rest : Bytes} {reading : Utf16.Reading}
    (h : readText16 offset bytes = .ok (reading, size, rest)) :
    bytes.length = size + rest.length := by
  simp only [readText16] at h
  split at h
  · simp at h
  · next length tail hlength =>
    have := Bytes.length_of_takeWord32 hlength
    split at h
    · simp only [Except.ok.injEq, Prod.mk.injEq] at h
      obtain ⟨_, rfl, rfl⟩ := h
      omega
    · split at h
      · simp at h
      · split at h
        · simp at h
        · next htext =>
          simp only [Except.ok.injEq, Prod.mk.injEq] at h
          obtain ⟨_, rfl, rfl⟩ := h
          have := Bytes.length_of_take? htext
          omega

theorem size_of_readText16 {offset size : Nat} {bytes rest : Bytes} {reading : Utf16.Reading}
    (h : readText16 offset bytes = .ok (reading, size, rest)) : 4 ≤ size := by
  simp only [readText16] at h
  split at h
  · simp at h
  · split at h
    · simp only [Except.ok.injEq, Prod.mk.injEq] at h
      omega
    · split at h
      · simp at h
      · split at h
        · simp at h
        · simp only [Except.ok.injEq, Prod.mk.injEq] at h
          omega

theorem length_of_readStep {offset size : Nat} {bytes rest : Bytes} {field : Field}
    (h : readStep offset bytes = .ok (.field field size rest)) : rest.length < bytes.length := by
  match bytes with
  | [] => simp [readStep] at h
  | tag :: tail =>
    simp only [readStep] at h
    rw [List.length_cons]
    split at h
    · simp at h
    · simp at h
    · split at h
      · simp at h
      · next htext =>
        simp only [Except.ok.injEq, Step.field.injEq] at h
        have := length_of_readText16 htext
        have := congrArg List.length h.2.2
        omega
    · have := length_of_countedField h
      omega
    · have := length_of_countedField h
      omega
    · have := length_of_countedField h
      omega
    · have := length_of_countedField h
      omega
    · have := length_of_countedField h
      omega
    · split at h
      · simp at h
      · next hfour =>
        simp only [Except.ok.injEq, Step.field.injEq] at h
        have := Bytes.length_of_take? hfour
        have := congrArg List.length h.2.2
        omega
    · split at h
      · simp at h
      · next hfour =>
        simp only [Except.ok.injEq, Step.field.injEq] at h
        have := Bytes.length_of_take? hfour
        have := congrArg List.length h.2.2
        omega

/-- The fields of the record that begins at an offset. -/
def readFields (offset : Nat) (bytes : Bytes) : Except Error (List Field) :=
  match _hstep : readStep offset bytes with
  | .error e => .error e
  | .ok .stop => .ok []
  | .ok (.field field size rest) =>
    match readFields (offset + size) rest with
    | .error e => .error e
    | .ok fields => .ok (field :: fields)
termination_by bytes.length
decreasing_by exact length_of_readStep _hstep

/-! ## Records -/

/-- What a record holds.  Parts of the key may be left out. -/
structure Record where
  translations : List Utf16.Reading := []
  context : Option Bytes := none
  source : Option Bytes := none
  comment : Option Bytes := none
deriving DecidableEq, Inhabited, Repr

namespace Field

/-- The translation in a field. -/
def translation? : Field → Option Utf16.Reading
  | translation reading => some reading
  | _ => none

/-- The context in a field. -/
def context? : Field → Option Bytes
  | context text => some text
  | _ => none

/-- The source text in a field. -/
def source? : Field → Option Bytes
  | source text => some text
  | _ => none

/-- The comment in a field. -/
def comment? : Field → Option Bytes
  | comment text => some text
  | _ => none

end Field

namespace Record

/-- The record of some fields. -/
def ofFields (fields : List Field) : Record :=
  { translations := fields.filterMap Field.translation?
    context := (fields.filterMap Field.context?).getLast?
    source := (fields.filterMap Field.source?).getLast?
    comment := (fields.filterMap Field.comment?).getLast? }

/-- Reads the record at an offset of a block of records. -/
def read (records : Bytes) (offset : Nat) : Except Error Record :=
  match records.drop offset with
  | [] => .error (.outOfRange offset)
  | bytes => (readFields offset bytes).map ofFields

/-- A record fits a key: the parts it has are those of the key, and an empty
comment fits any. -/
def fits (record : Record) (key : Key) : Bool :=
  record.context.all (· == Utf8.encode key.context)
    && record.source.all (· == Utf8.encode key.source)
    && record.comment.all fun stored => stored.isEmpty || stored == Utf8.encode key.comment

/-- The record with the parts that it left out taken from another one. -/
def completedFrom (record previous : Record) : Record :=
  { record with
    context := record.context.or previous.context
    source := record.source.or previous.source
    comment := record.comment.or previous.comment }

end Record

end MessageCatalog.Compiled
