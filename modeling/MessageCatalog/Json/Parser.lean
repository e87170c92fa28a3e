/-
# `MessageCatalog.Json.Parser` — reading values

The notation is read strictly: no comment, no comma after the last part, no
raw control character in a text, no leading zero in a number, and nothing
but blank space around the value.

A text literal is a sequence of UTF-16 code units, since an escape names a
unit and not a character.  It stands for a text when every surrogate among
its units has its partner.
-/
import MessageCatalog.Json.Value
import MessageCatalog.Text.Hex
import MessageCatalog.Text.Utf16

namespace MessageCatalog.Json

/-- Blank space between the parts of a value. -/
def isSpace (c : Char) : Bool := c == ' ' || c == '\n' || c == '\t' || c == '\r'

/-- What is left after blank space. -/
def skipSpace (input : List Char) : List Char := input.dropWhile isSpace

/-! ## Texts -/

/-- The code unit with four given hexadecimal digits. -/
def hexUnit? (a b c d : Char) : Option UInt16 := do
  let a ← Hex.value? a
  let b ← Hex.value? b
  let c ← Hex.value? c
  let d ← Hex.value? d
  return UInt16.ofNat (((a * 16 + b) * 16 + c) * 16 + d)

/-- The character that a one-letter escape stands for. -/
def shortEscape? (c : Char) : Option Char :=
  if c = '"' || c = '\\' || c = '/' then some c
  else if c = 'b' then some '\x08'
  else if c = 'f' then some '\x0c'
  else if c = 'n' then some '\n'
  else if c = 'r' then some '\r'
  else if c = 't' then some '\t'
  else none

/-- The code units of a text literal, up to its closing quote, and what
follows that quote.  `read` holds the units read so far, last one first. -/
def readUnits (read : List UInt16) : List Char → Option (List UInt16 × List Char)
  | [] => none
  | c :: rest =>
    if c = '"' then some (read.reverse, rest)
    else if c = '\\' then
      match rest with
      | [] => none
      | escape :: tail =>
        match shortEscape? escape with
        | some meant => readUnits ((Utf16.unitsOf meant).reverse ++ read) tail
        | none =>
          if escape = 'u' then
            match tail with
            | h₁ :: h₂ :: h₃ :: h₄ :: tail =>
              match hexUnit? h₁ h₂ h₃ h₄ with
              | some unit => readUnits (unit :: read) tail
              | none => none
            | _ => none
          else none
    else if c.toNat < 0x20 then none
    else readUnits ((Utf16.unitsOf c).reverse ++ read) rest

/-- The text that a sequence of code units stands for. -/
def textOfUnits (codeUnits : List UInt16) : Option String :=
  ((Utf16.scan codeUnits).mapM id).map String.ofList

/-- A text literal after its opening quote. -/
def readText (input : List Char) : Option (Option String × List Char) :=
  (readUnits [] input).map fun (codeUnits, rest) => (textOfUnits codeUnits, rest)

/-! ## Numbers -/

/-- Some digits. -/
def readDigits (input : List Char) : Option (List Char × List Char) :=
  let digits := input.takeWhile Char.isDigit
  if digits.isEmpty then none else some (digits, input.dropWhile Char.isDigit)

/-- The digits in front of a fraction: a zero stands alone. -/
def readWhole (input : List Char) : Option (List Char × List Char) :=
  match readDigits input with
  | some ('0' :: _ :: _, _) => none
  | result => result

/-- A fraction with its point, or nothing. -/
def readFraction : List Char → Option (List Char × List Char)
  | '.' :: rest => (readDigits rest).map fun (digits, rest) => ('.' :: digits, rest)
  | input => some ([], input)

/-- The sign of an exponent, or nothing. -/
def readSign : List Char → List Char × List Char
  | '+' :: rest => (['+'], rest)
  | '-' :: rest => (['-'], rest)
  | input => ([], input)

/-- An exponent with its letter, or nothing. -/
def readExponent : List Char → Option (List Char × List Char)
  | [] => some ([], [])
  | c :: rest =>
    if c = 'e' || c = 'E' then
      let (sign, rest) := readSign rest
      (readDigits rest).map fun (digits, rest) => (c :: sign ++ digits, rest)
    else some ([], c :: rest)

/-- The number with the given decimal digits. -/
def digitsValue (digits : List Char) : Nat :=
  digits.foldl (fun value c => value * 10 + (c.toNat - 48)) 0

/-- The value of a number with the given parts.  Minus zero is no
integer. -/
def numberOf (negative : Bool) (whole fraction exponent : List Char) : Json :=
  if fraction.isEmpty && exponent.isEmpty && !(negative && whole == ['0']) then
    .integer (if negative then -(digitsValue whole : Int) else digitsValue whole)
  else .decimal (String.ofList ((if negative then ['-'] else []) ++ whole ++ fraction ++ exponent))

/-- A number. -/
def readNumber (input : List Char) : Option (Json × List Char) := do
  let negative := input.head? == some '-'
  let (whole, rest) ← readWhole (if negative then input.tail else input)
  let (fraction, rest) ← readFraction rest
  let (exponent, rest) ← readExponent rest
  return (numberOf negative whole fraction exponent, rest)

/-! ## Values -/

mutual

/-- A value after blank space, and what follows it.  `fuel` bounds the depth
of the calls. -/
def readValue : Nat → List Char → Option (Json × List Char)
  | 0, _ => none
  | fuel + 1, input =>
    match skipSpace input with
    | 'n' :: 'u' :: 'l' :: 'l' :: rest => some (.null, rest)
    | 't' :: 'r' :: 'u' :: 'e' :: rest => some (.boolean true, rest)
    | 'f' :: 'a' :: 'l' :: 's' :: 'e' :: rest => some (.boolean false, rest)
    | '"' :: rest => (readText rest).map fun (content, rest) => (.text content, rest)
    | '[' :: rest =>
      match skipSpace rest with
      | ']' :: rest => some (.array [], rest)
      | rest => (readItems fuel [] rest).map fun (items, rest) => (.array items, rest)
    | '{' :: rest =>
      match skipSpace rest with
      | '}' :: rest => some (.object [], rest)
      | rest => (readMembers fuel [] rest).map fun (members, rest) => (.object members, rest)
    | rest => readNumber rest

/-- The items of an array from one item on, up to the closing bracket.
`read` holds the items read so far, last one first. -/
def readItems : Nat → List Json → List Char → Option (List Json × List Char)
  | 0, _, _ => none
  | fuel + 1, read, input =>
    match readValue fuel input with
    | none => none
    | some (item, rest) =>
      match skipSpace rest with
      | ',' :: rest => readItems fuel (item :: read) rest
      | ']' :: rest => some ((item :: read).reverse, rest)
      | _ => none

/-- The members of an object from one member on, up to the closing brace.
`read` holds the members read so far, last one first. -/
def readMembers : Nat → List (Option String × Json) → List Char →
    Option (List (Option String × Json) × List Char)
  | 0, _, _ => none
  | fuel + 1, read, input =>
    match skipSpace input with
    | '"' :: rest =>
      match readText rest with
      | none => none
      | some (name, rest) =>
        match skipSpace rest with
        | ':' :: rest =>
          match readValue fuel rest with
          | none => none
          | some (value, rest) =>
            match skipSpace rest with
            | ',' :: rest => readMembers fuel ((name, value) :: read) rest
            | '}' :: rest => some (((name, value) :: read).reverse, rest)
            | _ => none
        | _ => none
    | _ => none

end

/-- The value that a text writes.  Two calls for every character are
enough, since of two nested calls at least one takes a character. -/
def parse? (text : String) : Option Json :=
  let input := text.toList
  match readValue (2 * input.length + 2) input with
  | some (value, rest) => if (skipSpace rest).isEmpty then some value else none
  | none => none

end MessageCatalog.Json
