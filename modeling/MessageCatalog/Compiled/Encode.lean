/-
# `MessageCatalog.Compiled.Encode` — compiling a catalog

The records are written one after the other in the order of their keys, and
a table gives the hash and the offset of each.  In stripped mode a record
carries one level more of its key than it shares with a neighbour, and the
contexts are listed in a table of their own.

Problems that do not prevent the compilation are remarked on.  Only lengths
and offsets that do not fit into 32 bits do prevent it.
-/
import MessageCatalog.Compiled.ContextTable
import MessageCatalog.Compiled.Selection
import MessageCatalog.Plural.Table

namespace MessageCatalog.Compiled

/-! ## Records -/

/-- The levels of some keys in stripped mode.  `previous` is what the first
one shares with the key in front of it. -/
def strippedLevels (previous : Level) : List Key → List Level
  | [] => []
  | [_] => [previous.deeper (Level.next .nothing)]
  | key :: following :: rest =>
    let shared := key.shared following
    previous.deeper shared.next :: strippedLevels shared (following :: rest)

/-- The levels that some keys are written with. -/
def levels (mode : SaveMode) (keys : List Key) : List Level :=
  match mode with
  | .everything => keys.map fun _ => .comment
  | .stripped => strippedLevels .nothing keys

/-- The bytes of all records. -/
def writeRecords (mode : SaveMode) (records : Records) : Except Error (List Bytes) :=
  (records.zip (levels mode (records.map Prod.fst))).mapM fun ((key, translations), level) =>
    writeRecord key translations level

/-- The hashes and offsets of records, from an offset on. -/
def writeSlots (offset : Nat) : List (Key × Bytes) → Except Error (List Bytes)
  | [] => .ok []
  | (key, bytes) :: rest => do
    let slot := Bytes.ofWord32 key.hash ++ (← wireWord offset)
    let slots ← writeSlots (offset + bytes.length) rest
    return slot :: slots

/-! ## Blocks -/

/-- The names of other catalogs. -/
def writeDependencies (dependencies : List String) : Except Error Bytes :=
  (dependencies.mapM fun name => counted (Utf16.encode name)).map List.flatten

/-- The table of the contexts of some records, and the remark that there is
none because it grew too large. -/
def contextBlock (mode : SaveMode) (records : Records) : Bytes × List Remark :=
  if mode = .everything || records.isEmpty then ([], [])
  else
    match ContextTable.build (distinct (records.map fun r => Utf8.encode r.1.context)) with
    | .ok block => (block, [])
    | .error remark => ([], [remark])

/-- The plural rules of a language as bytes. -/
def ruleBlock (language : String) : Bytes :=
  match Plural.lookupCode language with
  | some row => row.bytes
  | none => []

/-- The blocks of a catalog, in their order. -/
def blocksOf (options : Options) (catalog : Catalog) (contexts : Bytes) :
    Except Error (List Block) := do
  let records := sortedRecords options catalog
  let written ← writeRecords options.saveMode records
  let slots ← writeSlots 0 ((records.map Prod.fst).zip written)
  let dependencies ← writeDependencies catalog.dependencies
  return [
    ⟨BlockTag.language.byte, Utf8.encode catalog.language⟩,
    ⟨BlockTag.dependencies.byte, dependencies⟩,
    ⟨BlockTag.hashes.byte, slots.flatten⟩,
    ⟨BlockTag.messages.byte, written.flatten⟩,
    ⟨BlockTag.contexts.byte, contexts⟩,
    ⟨BlockTag.pluralRules.byte, ruleBlock catalog.language⟩]

/-- The bytes of a file with some blocks.  Blocks without a payload are left
out. -/
def assemble (blocks : List Block) : Except Error Bytes := do
  let written ← (blocks.filter fun block => !block.payload.isEmpty).mapM Block.toBytes
  return magic ++ written.flatten

/-! ## Compiling -/

/-- A compiled catalog. -/
structure Compilation where
  bytes : Bytes
  statistics : Statistics
deriving DecidableEq, Repr

/-- The remarks on the keys of the entries. -/
def keyRemarks (statistics : Statistics) : List Remark :=
  (if statistics.idsMissing = 0 then [] else [.idsMissing statistics.idsMissing])
    ++ (if statistics.keyPartsDropped = 0 then []
      else [.keyPartsDropped statistics.keyPartsDropped])

/-- The remarks on a compilation that came to its end. -/
def closingRemarks (statistics : Statistics) : List Remark :=
  .generated statistics.finished statistics.unfinished
    :: (if statistics.untranslated = 0 then [] else [.ignored statistics.untranslated])

/-- Compiles a catalog.  There are remarks even when that fails. -/
def compile (options : Options) (catalog : Catalog) : List Remark × Except Error Compilation :=
  let statistics := statistics options catalog
  let (contexts, contextRemarks) :=
    contextBlock options.saveMode (sortedRecords options catalog)
  let remarks := keyRemarks statistics ++ contextRemarks
  match blocksOf options catalog contexts >>= assemble with
  | .error e => (remarks, .error e)
  | .ok bytes => (remarks ++ closingRemarks statistics, .ok { bytes, statistics })

/-- Compiles a catalog into a place with room for some bytes: the remarks,
the bytes that found room, and the statistics if all did. -/
def compileInto (capacity : Nat) (options : Options) (catalog : Catalog) :
    List Remark × Bytes × Except Error Statistics :=
  match compile options catalog with
  | (remarks, .error e) => (remarks, [], .error e)
  | (remarks, .ok { bytes, statistics }) =>
    (remarks, bytes.take capacity,
      if bytes.length ≤ capacity then .ok statistics else .error .sinkFull)

end MessageCatalog.Compiled
