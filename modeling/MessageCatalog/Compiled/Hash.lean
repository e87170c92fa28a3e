/-
# `MessageCatalog.Compiled.Hash` — the hash of a record

Records are found by a hash of 28 bits over their source text and comment.
Every byte shifts the hash by four bits; what is pushed out at the top is
folded back in further down.  Zero stands for an empty place, so no hash is
zero.
-/
import MessageCatalog.Bytes

namespace MessageCatalog.Compiled

/-- Takes one more byte into a hash. -/
def hashStep (hash : UInt32) (byte : UInt8) : UInt32 :=
  let shifted := (hash <<< 4) + byte.toUInt32
  let top := shifted &&& 0xF0000000
  (shifted ^^^ (top >>> 24)) &&& ~~~top

/-- The hash of some bytes, before zero is taken out. -/
def hashBytes (bytes : Bytes) : UInt32 := bytes.foldl hashStep 0

/-- The hash of some bytes. -/
def elfHash (bytes : Bytes) : UInt32 :=
  let hash := hashBytes bytes
  if hash = 0 then 1 else hash

/-- The hash of a record with the given source text and comment. -/
def recordHash (source comment : Bytes) : UInt32 := elfHash (source ++ comment)

end MessageCatalog.Compiled
