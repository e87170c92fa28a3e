/-
# `MessageCatalog.Plural.Program` — plural rules and their opcodes

A language has a few plural forms.  Which one belongs to a count is decided
by a program: a list of rules, each a chain of tests on the count, tried in
order.  A compiled catalog carries the program as bytes.  A test is one
opcode and its operands; its low three bits name the comparison, the next
bit negates it, and three more bits choose the part of the count that is
compared.  Rules and tests are separated by three reserved opcodes.

Decoding accepts an empty program, and otherwise exactly the alternations
of tests and separators that begin and end with a test.
-/
import MessageCatalog.Bytes
import MessageCatalog.Text.Hex

namespace MessageCatalog.Plural

/-! ## Instructions -/

/-- A comparison with one operand. -/
inductive Relation where
  | equal
  | below
  | atMost
deriving DecidableEq, Repr

/-- What a test asks of a number. -/
inductive Comparison where
  | single (relation : Relation) (operand : UInt8)
  /-- Both ends belong to the range. -/
  | between (low high : UInt8)
deriving DecidableEq, Repr

/-- The part of the count that is compared. -/
inductive Part where
  | whole
  | lastDigit
  | lastTwoDigits
  /-- The leading group of three digits: 1 for 1234567. -/
  | leadingGroup
deriving DecidableEq, Repr

/-- A test on the count. -/
structure Test where
  comparison : Comparison
  part : Part := .whole
  negated : Bool := false
deriving DecidableEq, Repr

/-- How a test joins the tests in front of it. -/
inductive Connective where
  | and
  | or
deriving DecidableEq, Repr

/-- One step of a program. -/
inductive Instruction where
  | test (test : Test)
  | combine (connective : Connective)
  /-- The rule of the next form begins. -/
  | newRule
deriving DecidableEq, Repr

/-- A plural program. -/
structure Program where
  instructions : List Instruction := []
deriving DecidableEq, Repr, Inhabited

/-! ## Faults -/

/-- Why bytes are no program. -/
inductive ProgramError where
  /-- The operands of the opcode at this offset are missing. -/
  | unexpectedEnd (offset : Nat)
  | unknownOpcode (opcode : UInt8) (offset : Nat)
  /-- A separator has no test in front of it. -/
  | misplacedSeparator (offset : Nat)
  /-- A separator has no test behind it. -/
  | danglingSeparator
deriving DecidableEq, Repr

/-- The text of a fault. -/
def ProgramError.message : ProgramError → String
  | .unexpectedEnd offset => s!"Rule program ends inside an instruction at byte {offset}"
  | .unknownOpcode opcode offset =>
    "Unknown rule opcode " ++ Hex.byte opcode ++ s!" at byte {offset}"
  | .misplacedSeparator offset =>
    s!"Combinator or rule separator without a preceding comparison at byte {offset}"
  | .danglingSeparator => "Rule program ends with a combinator or rule separator"

/-! ## Opcodes -/

/-- The separator with the given opcode. -/
def separator? (opcode : UInt8) : Option Instruction :=
  if opcode = 0xFD then some (.combine .and)
  else if opcode = 0xFE then some (.combine .or)
  else if opcode = 0xFF then some .newRule
  else none

/-- The number of a comparison, in the low three bits of an opcode. -/
def Relation.code : Relation → UInt8
  | .equal => 1
  | .below => 2
  | .atMost => 3

/-- The one-operand comparison of an opcode. -/
def relation? (opcode : UInt8) : Option Relation :=
  if opcode &&& 0x07 = 1 then some .equal
  else if opcode &&& 0x07 = 2 then some .below
  else if opcode &&& 0x07 = 3 then some .atMost
  else none

/-- The opcode compares with a range. -/
def isRange (opcode : UInt8) : Bool := opcode &&& 0x07 == 4

/-- The bit of an opcode that chooses a part of the count. -/
def Part.flag : Part → UInt8
  | .whole => 0
  | .lastDigit => 0x10
  | .lastTwoDigits => 0x20
  | .leadingGroup => 0x40

/-- The part an opcode chooses: the lowest of the three bits counts. -/
def partOf (opcode : UInt8) : Part :=
  if opcode &&& 0x10 ≠ 0 then .lastDigit
  else if opcode &&& 0x20 ≠ 0 then .lastTwoDigits
  else if opcode &&& 0x40 ≠ 0 then .leadingGroup
  else .whole

/-- The test of an opcode with its operands. -/
def testOf (opcode : UInt8) (comparison : Comparison) : Test :=
  { comparison, part := partOf opcode, negated := opcode &&& 0x08 != 0 }

/-- The bits of a test that do not belong to its comparison. -/
def Test.flags (test : Test) : UInt8 :=
  test.part.flag ||| (if test.negated then 0x08 else 0)

/-! ## Bytes -/

/-- The bytes of a test. -/
def Test.toBytes (test : Test) : Bytes :=
  match test.comparison with
  | .single relation operand => [test.flags ||| relation.code, operand]
  | .between low high => [test.flags ||| 4, low, high]

/-- The bytes of a step. -/
def Instruction.toBytes : Instruction → Bytes
  | .test t => t.toBytes
  | .combine .and => [0xFD]
  | .combine .or => [0xFE]
  | .newRule => [0xFF]

/-- The bytes of a program. -/
def Program.toBytes (program : Program) : Bytes :=
  program.instructions.flatMap Instruction.toBytes

/-- Puts an instruction in front of those that were read. -/
def prepend (instruction : Instruction) :
    Except ProgramError (List Instruction) → Except ProgramError (List Instruction)
  | .ok rest => .ok (instruction :: rest)
  | .error e => .error e

/-- Reads instructions from `offset` on.  `wanted` says that a test has to
come next, as at the beginning and behind a separator. -/
def readInstructions (offset : Nat) (wanted : Bool) :
    Bytes → Except ProgramError (List Instruction)
  | [] => if wanted then .error .danglingSeparator else .ok []
  | opcode :: rest =>
    match separator? opcode with
    | some separator =>
      if wanted then .error (.misplacedSeparator offset)
      else prepend separator (readInstructions (offset + 1) true rest)
    | none =>
      if !wanted || 0x80 ≤ opcode then .error (.unknownOpcode opcode offset)
      else if isRange opcode then
        match rest with
        | low :: high :: rest =>
          prepend (.test (testOf opcode (.between low high)))
            (readInstructions (offset + 3) false rest)
        | _ => .error (.unexpectedEnd offset)
      else
        match relation? opcode with
        | none => .error (.unknownOpcode opcode offset)
        | some relation =>
          match rest with
          | operand :: rest =>
            prepend (.test (testOf opcode (.single relation operand)))
              (readInstructions (offset + 2) false rest)
          | [] => .error (.unexpectedEnd offset)

/-- The program with the given bytes. -/
def Program.ofBytes (bytes : Bytes) : Except ProgramError Program :=
  if bytes.isEmpty then .ok {}
  else (readInstructions 0 true bytes).map Program.mk

/-! ## Size -/

/-- The program has no rule. -/
def Program.isEmpty (program : Program) : Bool := program.instructions.isEmpty

/-- How many forms a program tells apart: one for each rule and one more
for counts that no rule takes.  The empty program has a single form. -/
def Program.formCount (program : Program) : Nat :=
  if program.isEmpty then 1 else program.instructions.count .newRule + 2

end MessageCatalog.Plural
