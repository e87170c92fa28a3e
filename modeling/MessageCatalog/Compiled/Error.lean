/-
# `MessageCatalog.Compiled.Error` — faults of a compiled catalog

Offsets count bytes from the beginning of the block that the fault is in.
-/
import MessageCatalog.Text.Hex

namespace MessageCatalog.Compiled

/-- Why bytes are no compiled catalog, or why one cannot be written. -/
inductive Error where
  /-- The bytes do not begin as every compiled catalog does. -/
  | badMagic
  /-- A block is longer than what is left. -/
  | truncatedBlock (tag : UInt8) (declared remaining : Nat)
  | truncatedRecord (offset : Nat)
  /-- A text in 16-bit units has an odd number of bytes. -/
  | oddLength (offset length : Nat)
  | unknownTag (tag : UInt8) (offset : Nat)
  /-- A text is not well formed.  All else is sound. -/
  | invalidText
  /-- An offset leads out of the records, or is too large to be written. -/
  | outOfRange (offset : Nat)
  /-- The place to write to has no room. -/
  | sinkFull
deriving DecidableEq, Repr

/-- The text of a fault. -/
def Error.message : Error → String
  | badMagic => "Not a compiled translation catalog (bad magic number)"
  | truncatedBlock tag declared remaining =>
    "Block " ++ Hex.byte tag ++ " declares " ++ toString declared ++ " bytes but only "
      ++ toString remaining ++ " remain"
  | truncatedRecord offset => "Message record ends prematurely at byte " ++ toString offset
  | oddLength offset length =>
    "Translation at byte " ++ toString offset ++ " has odd UTF-16 length " ++ toString length
  | unknownTag tag offset =>
    "Unknown record tag " ++ Hex.byte tag ++ " at byte " ++ toString offset
  | invalidText => "Catalog contains invalid UTF-8 text"
  | outOfRange offset =>
    "Offset table points outside the message block (" ++ toString offset ++ ")"
  | sinkFull => "I/O error: failed to write whole buffer"

end MessageCatalog.Compiled
