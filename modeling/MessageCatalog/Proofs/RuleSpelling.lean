/-
# `MessageCatalog.Proofs.RuleSpelling` — a plural program written again

Reading bytes and writing the program again gives

    0x31 0x05   →   last digit = 5   →   0x11 0x05

for of the bits that choose a part of the count only the first one counts.
So what is written is read as the same program, and it is what was read
unless some test was spelled with a bit too many.

The bits of an opcode are compared once and for all opcodes.  The rest
follows the alternation of tests and separators: both spellings of a test
are of one length, so two programs are spelled alike exactly if their tests
are.
-/
import MessageCatalog.Proofs.RuleGrammar

namespace MessageCatalog.Plural

/-! ## Opcodes of tests -/

/-- The number of operands behind the opcode of a test. -/
def operandCount (opcode : UInt8) : Nat := if isRange opcode then 2 else 1

/-- The opcodes of the tests in some bytes, behind `operands` operands. -/
def testOpcodesFrom : (operands : Nat) → Bytes → List UInt8
  | _, [] => []
  | operands + 1, _ :: rest => testOpcodesFrom operands rest
  | 0, opcode :: rest =>
    if (separator? opcode).isSome then testOpcodesFrom 0 rest
    else opcode :: testOpcodesFrom (operandCount opcode) rest

/-- The opcodes of the tests of a program. -/
def testOpcodes (bytes : Bytes) : List UInt8 := testOpcodesFrom 0 bytes

theorem testOpcodes_separator {opcode : UInt8} {separator : Instruction}
    (h : separator? opcode = some separator) (rest : Bytes) :
    testOpcodes (opcode :: rest) = testOpcodes rest := by
  rw [testOpcodes, testOpcodesFrom, h]
  rfl

theorem WrittenTest.opcode_clear (written : WrittenTest) : written.opcode &&& 0x80 = 0 := by
  cases written with
  | single relation opcode operand => exact opcode.property.1
  | between opcode low high => exact opcode.property.1

theorem testOpcodes_test (written : WrittenTest) (rest : Bytes) :
    testOpcodes (written.bytes ++ rest) = written.opcode :: testOpcodes rest := by
  rw [WrittenTest.bytes, List.cons_append, testOpcodes, testOpcodesFrom,
    separator?_of_clear _ written.opcode_clear, operandCount]
  cases written with
  | single relation opcode operand =>
      rw [WrittenTest.opcode, isRange_of_code opcode.property.2]
      rfl
  | between opcode low high =>
      rw [WrittenTest.opcode, isRange_iff.mpr opcode.property.2]
      rfl

/-- At most one of the bits is set that choose a part of the count. -/
def ChoosesOnce (opcode : UInt8) : Prop :=
  ([0x10, 0x20, 0x40].countP fun bit => opcode &&& bit != 0) ≤ 1

instance (opcode : UInt8) : Decidable (ChoosesOnce opcode) :=
  inferInstanceAs (Decidable (_ ≤ _))

/-! ## Tests written again -/

/-- The opcode with the bits that say the same as those of the given one, and
no other. -/
def rewritten (opcode : UInt8) : UInt8 :=
  (chosenPart opcode).flag ||| (if opcode &&& 0x08 != 0 then 0x08 else 0) ||| (opcode &&& 0x07)

theorem rewritten_eq_self_iff :
    ∀ opcode : UInt8, opcode &&& 0x80 = 0 → (rewritten opcode = opcode ↔ ChoosesOnce opcode) :=
  forall_byte_of_digits (by decide)

theorem rewritten_spec :
    ∀ opcode : UInt8, rewritten opcode &&& 0x80 = 0
      ∧ rewritten opcode &&& 0x07 = opcode &&& 0x07
      ∧ chosenPart (rewritten opcode) = chosenPart opcode
      ∧ (rewritten opcode &&& 0x08 != 0) = (opcode &&& 0x08 != 0) :=
  forall_byte_of_digits (by decide)

namespace WrittenTest

theorem toBytes_test (written : WrittenTest) :
    written.test.toBytes = rewritten written.opcode :: written.operands := by
  cases written with
  | single relation opcode operand =>
      rw [WrittenTest.opcode, rewritten, opcode.property.2]
      rfl
  | between opcode low high =>
      rw [WrittenTest.opcode, rewritten, opcode.property.2]
      rfl

theorem toBytes_test_eq_iff (written : WrittenTest) :
    written.test.toBytes = written.bytes ↔ ChoosesOnce written.opcode := by
  rw [toBytes_test, bytes, ← rewritten_eq_self_iff _ written.opcode_clear]
  exact ⟨fun h => (List.cons.inj h).1, fun h => by rw [h]⟩

/-- The test, spelled as it is written again. -/
def again : WrittenTest → WrittenTest
  | single relation opcode operand =>
    .single relation ⟨rewritten opcode, (rewritten_spec opcode).1,
      (rewritten_spec opcode).2.1.trans opcode.property.2⟩ operand
  | between opcode low high =>
    .between ⟨rewritten opcode, (rewritten_spec opcode).1,
      (rewritten_spec opcode).2.1.trans opcode.property.2⟩ low high

theorem bytes_again (written : WrittenTest) : written.again.bytes = written.test.toBytes := by
  rw [toBytes_test]
  cases written <;> rfl

theorem test_again (written : WrittenTest) : written.again.test = written.test := by
  have hopcode : written.again.opcode = rewritten written.opcode := by cases written <;> rfl
  have hcomparison : written.again.comparison = written.comparison := by cases written <;> rfl
  rw [test, test, hopcode, hcomparison, (rewritten_spec _).2.2.1, (rewritten_spec _).2.2.2]

end WrittenTest

/-! ## Programs written again -/

theorem toBytes_of_separator? {opcode : UInt8} {separator : Instruction}
    (h : separator? opcode = some separator) : separator.toBytes = [opcode] := by
  rcases eq_of_separator? h with ⟨connective, rfl, rfl⟩ | ⟨rfl, rfl⟩
  · cases connective <;> rfl
  · rfl

/-- What is written alternates in the same way. -/
theorem Alternates.again {wanted : Bool} {bytes : Bytes} {instructions : List Instruction}
    (h : Alternates wanted bytes instructions) :
    Alternates wanted (instructions.flatMap Instruction.toBytes) instructions := by
  induction h with
  | done => exact .done
  | test written _ ih =>
      have hnext := Alternates.test written.again ih
      rwa [WrittenTest.bytes_again, WrittenTest.test_again] at hnext
  | separator hseparator _ ih =>
      rw [List.flatMap_cons, toBytes_of_separator? hseparator]
      exact .separator hseparator ih

theorem Alternates.toBytes_eq_iff {wanted : Bool} {bytes : Bytes}
    {instructions : List Instruction} (h : Alternates wanted bytes instructions) :
    instructions.flatMap Instruction.toBytes = bytes
      ↔ ∀ opcode ∈ testOpcodes bytes, ChoosesOnce opcode := by
  induction h with
  | done => exact iff_of_true rfl (List.forall_mem_nil _)
  | @test written rest instructions _ ih =>
      rw [testOpcodes_test, List.forall_mem_cons, ← ih, ← written.toBytes_test_eq_iff,
        List.flatMap_cons]
      have hlength : written.test.toBytes.length = written.bytes.length := by
        rw [written.toBytes_test]
        rfl
      constructor
      · intro heq
        exact List.append_inj heq hlength
      · rintro ⟨htest, hrest⟩
        rw [Instruction.toBytes, htest, hrest]
  | separator hseparator _ ih =>
      rw [testOpcodes_separator hseparator, ← ih, List.flatMap_cons,
        toBytes_of_separator? hseparator, List.singleton_append]
      exact ⟨fun heq => (List.cons.inj heq).2, fun heq => by rw [heq]⟩

/-- A program that was read from bytes is read again from those that it
writes, and it writes the bytes that it was read from exactly if none of
their tests has more than one of the bits that choose a part of the count. -/
theorem Program.ofBytes_toBytes {bytes : Bytes} {program : Program}
    (h : Program.ofBytes bytes = .ok program) :
    Program.ofBytes program.toBytes = .ok program
      ∧ (program.toBytes = bytes ↔ ∀ opcode ∈ testOpcodes bytes, ChoosesOnce opcode) := by
  rcases ofBytes_eq_ok.mp h with ⟨rfl, rfl⟩ | halternates
  · exact ⟨rfl, iff_of_true rfl (List.forall_mem_nil _)⟩
  · exact ⟨ofBytes_eq_ok.mpr (.inr halternates.again), halternates.toBytes_eq_iff⟩

/-- Two tests with more bits than they need, and with operands that look like
separators. -/
def overspelled : Bytes := [0x31, 0xFF, 0xFD, 0x6C, 0xFE, 0x05, 0xFF, 0x02, 0x03]

theorem Program.ofBytes_toBytes_overspelled :
    ∃ program, Program.ofBytes overspelled = .ok program
      ∧ Program.ofBytes program.toBytes = .ok program
      ∧ testOpcodes overspelled = [0x31, 0x6C, 0x02]
      ∧ program.toBytes ≠ overspelled := by
  have h : Program.ofBytes overspelled = .ok {
      instructions := [
        .test { comparison := .single .equal 0xFF, part := .lastDigit }, .combine .and,
        .test { comparison := .between 0xFE 5, part := .lastTwoDigits, negated := true }, .newRule,
        .test { comparison := .single .below 3 }] } := rfl
  obtain ⟨hagain, hsame⟩ := Program.ofBytes_toBytes h
  exact ⟨_, h, hagain, by decide, fun heq => absurd (hsame.mp heq) (by decide)⟩

end MessageCatalog.Plural
