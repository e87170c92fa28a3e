/-
# `MessageCatalog.Compiled.Block` — the blocks of a compiled catalog

A compiled catalog begins with sixteen fixed bytes.  Blocks follow: a tag,
the length of the payload in four bytes, and the payload.  The sequence ends
where no block can begin, or at a block without a tag or a payload; what
follows is not looked at.
-/
import MessageCatalog.Bytes
import MessageCatalog.Compiled.Error

namespace MessageCatalog.Compiled

/-- The first bytes of every compiled catalog. -/
def magic : Bytes :=
  [0x3C, 0xB8, 0x64, 0x18, 0xCA, 0xEF, 0x9C, 0x95, 0xCD, 0x21, 0x1C, 0xBF, 0x60, 0xA1, 0xBD, 0xDD]

/-- A length or an offset in four bytes. -/
def wireWord (value : Nat) : Except Error Bytes :=
  if value < 4294967296 then .ok (Bytes.ofWord32 (UInt32.ofNat value)) else .error (.outOfRange value)

/-- Bytes with their length in front. -/
def counted (payload : Bytes) : Except Error Bytes :=
  (wireWord payload.length).map fun length => length ++ payload

/-- Bytes with a tag and their length in front. -/
def tagged (tag : UInt8) (payload : Bytes) : Except Error Bytes :=
  (counted payload).map fun bytes => tag :: bytes

/-- A block. -/
structure Block where
  tag : UInt8
  payload : Bytes
deriving DecidableEq, Repr

/-- The bytes of a block. -/
def Block.toBytes (block : Block) : Except Error Bytes := tagged block.tag block.payload

/-- The blocks at the front of some bytes, and the fault of the first block
that does not fit. -/
def splitBlocks : Bytes → List Block × Option Error
  | [] => ([], none)
  | tag :: rest =>
    match _hlength : Bytes.takeWord32 rest with
    | none => ([], none)
    | some (length, rest') =>
      if tag = 0 || length = 0 then ([], none)
      else
        match _hpayload : Bytes.take? length.toNat rest' with
        | none => ([], some (.truncatedBlock tag length.toNat rest'.length))
        | some (payload, rest'') =>
          let (blocks, fault) := splitBlocks rest''
          (⟨tag, payload⟩ :: blocks, fault)
termination_by bytes => bytes.length
decreasing_by
  have := Bytes.length_of_takeWord32 _hlength
  have := Bytes.length_of_take? _hpayload
  simp only [List.length_cons]
  omega

end MessageCatalog.Compiled
