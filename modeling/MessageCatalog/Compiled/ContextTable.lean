/-
# `MessageCatalog.Compiled.ContextTable` — which contexts a catalog has

A catalog that leaves out parts of its keys carries a table of its contexts,
so that a look-up under another context fails at once.  The table is a hash
table: the number of buckets, a place for every bucket, and a pool of
chains.  A chain lists contexts, each behind its length in one byte, and
ends with a zero.  The place of a bucket is half the offset of its chain in
the pool, or zero when it has none; so chains have an even size, and the
pool begins with two bytes that no chain uses.

Only the first 255 bytes of a context count.  The empty context cannot be
listed and always counts as known.
-/
import MessageCatalog.Compiled.Error
import MessageCatalog.Compiled.Hash
import MessageCatalog.Compiled.Tag
import MessageCatalog.Remark

namespace MessageCatalog.Compiled

/-- The different byte strings of a list, in ascending order. -/
def distinct (strings : List Bytes) : List Bytes :=
  (strings.mergeSort fun a b => (compare a b).isLE).eraseReps

namespace ContextTable

/-! ## Sizes -/

/-- The number of buckets for a number of contexts. -/
def tableSize (contexts : Nat) : Nat :=
  if contexts < 60 then 151
  else if contexts < 200 then 503
  else if contexts < 750 then 1511
  else if contexts < 2500 then 5003
  else if contexts < 10000 then 15013
  else contexts * 3 / 2

/-- The largest size of a pool. -/
def maxPoolSize : Nat := 131072

/-- The part of a context that counts. -/
def storedPart (context : Bytes) : Bytes := context.take 255

/-- The bucket of a context. -/
def bucketOf (buckets : Nat) (context : Bytes) : Nat := (elfHash context).toNat % buckets

/-! ## Chains -/

/-- The contexts of one bucket, as they stand in the pool. -/
structure Chain where
  bucket : Nat
  bytes : Bytes
deriving DecidableEq, Repr

/-- A context behind its length. -/
def listed (context : Bytes) : Bytes := UInt8.ofNat context.length :: context

/-- Bytes filled up to an even number. -/
def evened (bytes : Bytes) : Bytes := if bytes.length % 2 = 0 then bytes else bytes ++ [0]

theorem length_evened (bytes : Bytes) :
    (evened bytes).length = bytes.length + bytes.length % 2 := by
  unfold evened
  split
  · omega
  · rw [List.length_append, List.length_singleton]
    omega

/-- The chain of some contexts, each with its bucket, which is the same. -/
def Chain.of (contexts : List (Nat × Bytes)) : Chain :=
  { bucket := (contexts.head?.map Prod.fst).getD 0
    bytes := evened ((contexts.flatMap fun c => listed c.2) ++ [0]) }

/-- The contexts that are listed, each with its bucket, in the order of the
pool. -/
def bucketed (buckets : Nat) (contexts : List Bytes) : List (Nat × Bytes) :=
  ((contexts.filter fun c => !c.isEmpty).map fun c =>
    (bucketOf buckets (storedPart c), storedPart c)).mergeSort fun a b =>
      (compareLex (compareOn Prod.fst) (compareOn Prod.snd) a b).isLE

/-- The chains of some contexts, by ascending bucket. -/
def chains (buckets : Nat) (contexts : List Bytes) : List Chain :=
  ((bucketed buckets contexts).splitBy fun a b => a.1 == b.1).map Chain.of

/-- Gives chains their offsets, from `start` on, as long as an offset can be
written. -/
def place (start : Nat) : List Chain → List (Chain × Nat)
  | [] => []
  | chain :: rest =>
    if start / 2 < 65536 then (chain, start) :: place (start + chain.bytes.length) rest else []

/-! ## Building -/

/-- The places of all buckets. -/
def placesOf (buckets : Nat) (placed : List (Chain × Nat)) : Array UInt16 :=
  placed.foldl (fun places (chain, start) =>
    places.setIfInBounds chain.bucket (UInt16.ofNat (start / 2))) (Array.replicate buckets 0)

/-- The pool with some chains. -/
def poolOf (placed : List (Chain × Nat)) : Bytes := 0 :: 0 :: placed.flatMap fun p => p.1.bytes

/-- The table of different contexts as a block, or the remark that there is
none because it would grow too large. -/
def build (contexts : List Bytes) : Except Remark Bytes :=
  let buckets := tableSize contexts.length
  if 65535 < buckets then .error (.tooManyContexts contexts.length)
  else
    let chains := chains buckets contexts
    let placed := place 2 chains
    let pool := poolOf placed
    if maxPoolSize < pool.length || placed.length < chains.length then
      .error (.contextPoolTooLarge contexts.length pool.length)
    else
      .ok (Bytes.ofWord16 (UInt16.ofNat buckets)
        ++ (placesOf buckets placed).toList.flatMap Bytes.ofWord16 ++ pool)

end ContextTable

/-! ## Reading -/

/-- A context table. -/
structure ContextTable where
  places : Array UInt16
  pool : Array UInt8
deriving DecidableEq, Inhabited, Repr

namespace ContextTable

/-- The table in a block. -/
def parse (block : Bytes) : Except Error ContextTable :=
  let truncated (declared : Nat) : Except Error ContextTable :=
    .error (.truncatedBlock BlockTag.contexts.byte declared block.length)
  match block with
  | high :: low :: rest =>
    let size := 2 * (Bytes.word16 high low).toNat
    match Bytes.take? size rest with
    | some (places, pool) =>
      .ok { places := (Bytes.words16 places).toArray, pool := pool.toArray }
    | none => truncated (2 + size)
  | _ => truncated 2

/-- The number of buckets. -/
def bucketCount (table : ContextTable) : Nat := table.places.size

/-- A context is listed in the chain at an offset of a pool. -/
def chainHas (pool : Array UInt8) (context : Bytes) (offset : Nat) : Bool :=
  match pool[offset]? with
  | none => false
  | some length =>
    let stop := offset + 1 + length.toNat
    if _hstop : length = 0 ∨ pool.size < stop then false
    else if (pool.extract (offset + 1) stop).toList == context then true
    else chainHas pool context stop
termination_by pool.size - offset
decreasing_by omega

/-- A context counts as known. -/
def contains (table : ContextTable) (context : Bytes) : Bool :=
  let context := storedPart context
  if context.isEmpty then true
  else
    match table.places[bucketOf table.bucketCount context]? with
    | none => false
    | some place => if place = 0 then false else chainHas table.pool context (2 * place.toNat)

end ContextTable

end MessageCatalog.Compiled
