/-
# `MessageCatalog.Text.Utf16` — texts as 16-bit code units

Translations and dependency names are stored as UTF-16 in big-endian order.
A character of the basic plane is one unit, any other is a high surrogate
followed by a low one.  Reading never fails: `scan` finds the characters
and marks every surrogate without its partner, `decode` puts the
replacement character there and says whether it had to.
-/
import MessageCatalog.Bytes

namespace MessageCatalog.Utf16

/-! ## Writing -/

/-- The code units of one character. -/
def unitsOf (c : Char) : List UInt16 :=
  if c.toNat < 0x10000 then [UInt16.ofNat c.toNat]
  else
    [UInt16.ofNat (0xD800 + (c.toNat - 0x10000) / 0x400),
      UInt16.ofNat (0xDC00 + (c.toNat - 0x10000) % 0x400)]

/-- The code units of a text. -/
def units (text : String) : List UInt16 := text.toList.flatMap unitsOf

/-- A text in UTF-16, most significant byte first. -/
def encode (text : String) : Bytes := (units text).flatMap Bytes.ofWord16

/-! ## Reading -/

/-- The first half of a surrogate pair. -/
def isHigh (u : UInt16) : Bool := 0xD800 ≤ u.toNat && u.toNat < 0xDC00

/-- The second half of a surrogate pair. -/
def isLow (u : UInt16) : Bool := 0xDC00 ≤ u.toNat && u.toNat < 0xE000

/-- The character that two halves stand for. -/
def paired (high low : UInt16) : Char :=
  Char.ofNat (0x10000 + (high.toNat - 0xD800) * 0x400 + (low.toNat - 0xDC00))

/-- What a unit that opens no pair and closes none stands for: a character,
or nothing when it is the second half of a pair. -/
def single (u : UInt16) : Option Char :=
  if isLow u then none else some (Char.ofNat u.toNat)

/-- The characters of a sequence of code units that follows the first half
of a pair, if `half` is one.  `none` stands for a surrogate that has no
partner. -/
def scanFrom (half : Option UInt16) : List UInt16 → List (Option Char)
  | [] => half.toList.map fun _ => none
  | u :: rest =>
    match half with
    | some high =>
      if isLow u then some (paired high u) :: scanFrom none rest
      else none :: (if isHigh u then scanFrom (some u) rest else single u :: scanFrom none rest)
    | none => if isHigh u then scanFrom (some u) rest else single u :: scanFrom none rest

/-- The characters of a sequence of code units. -/
def scan (codeUnits : List UInt16) : List (Option Char) := scanFrom none codeUnits

/-- What a sequence of UTF-16 bytes reads as. -/
structure Reading where
  /-- The text, with U+FFFD for every unpaired surrogate. -/
  text : String
  /-- No surrogate was unpaired. -/
  valid : Bool
deriving DecidableEq, Repr

/-- Reads UTF-16, most significant byte first. -/
def decode (bytes : Bytes) : Reading :=
  let characters := scan (Bytes.words16 bytes)
  { text := String.ofList (characters.map fun c => c.getD '\uFFFD')
    valid := characters.all Option.isSome }

end MessageCatalog.Utf16
