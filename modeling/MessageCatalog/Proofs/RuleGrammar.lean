/-
# `MessageCatalog.Proofs.RuleGrammar` — the bytes of a plural program

Bytes are decoded by a scan that knows one thing, whether a test has to come
next.  What it accepts has a grammar:

    program  =  nothing  |  rule (0xFF rule)*
    rule     =  test ((0xFD | 0xFE) test)*
    test     =  an opcode and one operand, or two behind a range opcode

The opcode of a test has bit 7 clear and the number of its comparison, 1 to
4, in the low three bits; an operand is any byte, also one that looks like an
opcode or a separator.

A grammar of two levels and a scan of two states do not match step by step.
Between them stands `Alternates`, tests and separators in turn: the scan
decides it, and it falls into rules at the bytes 0xFF.
-/
import MessageCatalog.Plural.Selection

namespace MessageCatalog.Plural

/-! ## Opcodes -/

/-- The opcodes that may introduce a test with this comparison. -/
abbrev TestOpcode (number : UInt8) : Type :=
  { opcode : UInt8 // opcode &&& 0x80 = 0 ∧ opcode &&& 0x07 = number }

/-- What holds of every byte given by its two hexadecimal digits holds of
every byte. -/
theorem forall_byte_of_digits {P : UInt8 → Prop}
    (h : ∀ high < 16, ∀ low < 16, P (UInt8.ofNat (16 * high + low))) (byte : UInt8) : P byte := by
  have hhigh : byte.toNat / 16 < 16 := by
    have := byte.toNat_lt
    omega
  have hbyte := h (byte.toNat / 16) hhigh (byte.toNat % 16) (Nat.mod_lt _ (by decide))
  rwa [Nat.div_add_mod, UInt8.ofNat_toNat] at hbyte

theorem bit7_clear_iff : ∀ opcode : UInt8, opcode &&& 0x80 = 0 ↔ ¬ 0x80 ≤ opcode :=
  forall_byte_of_digits (by decide)

/-- A separator has bit 7 set. -/
theorem separator?_of_clear :
    ∀ opcode : UInt8, opcode &&& 0x80 = 0 → separator? opcode = none :=
  forall_byte_of_digits (by decide)

theorem relation?_eq_some_iff {opcode : UInt8} {relation : Relation} :
    relation? opcode = some relation ↔ opcode &&& 0x07 = relation.code := by
  unfold relation?
  generalize opcode &&& 0x07 = number
  split
  · next h => cases relation <;> simp [h, Relation.code]
  · split
    · next h => cases relation <;> simp [h, Relation.code]
    · split
      · next h => cases relation <;> simp [h, Relation.code]
      · cases relation <;> simp_all [Relation.code]

theorem isRange_iff {opcode : UInt8} : isRange opcode = true ↔ opcode &&& 0x07 = 4 := beq_iff_eq

/-- An opcode of one operand is no range opcode. -/
theorem isRange_of_code {opcode : UInt8} {relation : Relation}
    (h : opcode &&& 0x07 = relation.code) : isRange opcode = false := by
  unfold isRange
  rw [h]
  cases relation <;> rfl

/-! ## Written tests -/

/-- The part of the count that an opcode chooses: the first one whose bit is
set, and the whole count if none is. -/
def chosenPart (opcode : UInt8) : Part :=
  ([Part.lastDigit, .lastTwoDigits, .leadingGroup].find? fun part =>
    opcode &&& part.flag != 0).getD .whole

theorem partOf_eq_chosenPart : ∀ opcode : UInt8, partOf opcode = chosenPart opcode :=
  forall_byte_of_digits (by decide)

/-- A test as it is written: its opcode and its operands. -/
inductive WrittenTest where
  | single (relation : Relation) (opcode : TestOpcode relation.code) (operand : UInt8)
  | between (opcode : TestOpcode 4) (low high : UInt8)

namespace WrittenTest

/-- The opcode. -/
def opcode : WrittenTest → UInt8
  | single _ opcode _ => opcode.val
  | between opcode _ _ => opcode.val

/-- The operands. -/
def operands : WrittenTest → Bytes
  | single _ _ operand => [operand]
  | between _ low high => [low, high]

/-- The opcode and the operands behind it. -/
def bytes (written : WrittenTest) : Bytes := written.opcode :: written.operands

/-- What is asked of the part. -/
def comparison : WrittenTest → Comparison
  | single relation _ operand => .single relation operand
  | between _ low high => .between low high

/-- The test that is written. -/
def test (written : WrittenTest) : Test where
  comparison := written.comparison
  part := chosenPart written.opcode
  negated := written.opcode &&& 0x08 != 0

theorem testOf_opcode (written : WrittenTest) :
    testOf written.opcode written.comparison = written.test := by
  rw [testOf, partOf_eq_chosenPart]
  rfl

end WrittenTest

/-! ## Tests and separators in turn -/

/-- Bytes alternate between tests and separators, up to a test at their end.
`wanted` says that they begin with a test. -/
inductive Alternates : Bool → Bytes → List Instruction → Prop
  | done : Alternates false [] []
  | test (written : WrittenTest) {rest : Bytes} {instructions : List Instruction} :
      Alternates false rest instructions →
      Alternates true (written.bytes ++ rest) (.test written.test :: instructions)
  | separator {opcode : UInt8} {separator : Instruction} {rest : Bytes}
      {instructions : List Instruction} :
      separator? opcode = some separator → Alternates true rest instructions →
      Alternates false (opcode :: rest) (separator :: instructions)

theorem prepend_eq_ok {instruction : Instruction} {instructions : List Instruction}
    {read : Except ProgramError (List Instruction)} :
    prepend instruction read = .ok instructions
      ↔ ∃ rest, read = .ok rest ∧ instructions = instruction :: rest := by
  cases read with
  | error e =>
      constructor
      · intro h
        cases h
      · rintro ⟨rest, h, -⟩
        cases h
  | ok rest =>
      constructor
      · intro h
        cases h
        exact ⟨rest, rfl, rfl⟩
      · rintro ⟨_, h, rfl⟩
        cases h
        rfl

theorem readInstructions_separator {opcode : UInt8} {separator : Instruction}
    (h : separator? opcode = some separator) (offset : Nat) (rest : Bytes) :
    readInstructions offset false (opcode :: rest)
      = prepend separator (readInstructions (offset + 1) true rest) := by
  rw [readInstructions.eq_def]
  simp only [h, Bool.false_eq_true, if_false]

/-- A test is read where one is wanted and the opcode has bit 7 clear. -/
theorem legal_iff {wanted : Bool} {opcode : UInt8} :
    ¬ (!wanted || decide (0x80 ≤ opcode)) = true ↔ wanted = true ∧ opcode &&& 0x80 = 0 := by
  rw [bit7_clear_iff]
  cases wanted <;> simp

theorem readInstructions_test (written : WrittenTest) (offset : Nat) (rest : Bytes) :
    readInstructions offset true (written.bytes ++ rest)
      = prepend (.test written.test)
          (readInstructions (offset + written.bytes.length) false rest) := by
  rw [← written.testOf_opcode]
  cases written with
  | single relation opcode operand =>
      obtain ⟨opcode, hclear, hcode⟩ := opcode
      rw [readInstructions.eq_def]
      simp only [WrittenTest.bytes, WrittenTest.opcode, WrittenTest.operands, List.cons_append,
        List.nil_append,
        separator?_of_clear opcode hclear, if_neg (legal_iff.mpr ⟨rfl, hclear⟩),
        isRange_of_code hcode, relation?_eq_some_iff.mpr hcode]
      rfl
  | between opcode low high =>
      obtain ⟨opcode, hclear, hcode⟩ := opcode
      rw [readInstructions.eq_def]
      simp only [WrittenTest.bytes, WrittenTest.opcode, WrittenTest.operands, List.cons_append,
        List.nil_append,
        separator?_of_clear opcode hclear, if_neg (legal_iff.mpr ⟨rfl, hclear⟩),
        isRange_iff.mpr hcode, if_true]
      rfl

theorem Alternates.readInstructions {wanted : Bool} {bytes : Bytes}
    {instructions : List Instruction} (h : Alternates wanted bytes instructions) :
    ∀ offset, readInstructions offset wanted bytes = .ok instructions := by
  induction h with
  | done =>
      intro offset
      rfl
  | test written _ ih =>
      intro offset
      rw [readInstructions_test, ih]
      rfl
  | separator hseparator _ ih =>
      intro offset
      rw [readInstructions_separator hseparator, ih]
      rfl

theorem alternates_of_readInstructions (offset : Nat) (wanted : Bool) (bytes : Bytes) :
    ∀ instructions, readInstructions offset wanted bytes = .ok instructions →
      Alternates wanted bytes instructions := by
  fun_induction readInstructions offset wanted bytes with
  | case1 | case3 | case5 | case7 | case8 | case10 =>
      intro instructions h
      cases h
  | case2 offset wanted hwanted =>
      intro instructions h
      cases h
      rw [Bool.not_eq_true] at hwanted
      rw [hwanted]
      exact .done
  | case4 offset wanted opcode rest separator hseparator hwanted ih =>
      intro instructions h
      obtain ⟨rest, hread, rfl⟩ := prepend_eq_ok.mp h
      rw [Bool.not_eq_true] at hwanted
      rw [hwanted]
      exact .separator hseparator (ih rest hread)
  | case6 offset wanted opcode _ hlegal hrange low high rest ih =>
      intro instructions h
      obtain ⟨rest, hread, rfl⟩ := prepend_eq_ok.mp h
      obtain ⟨rfl, hclear⟩ := legal_iff.mp hlegal
      have hnext := Alternates.test
        (.between ⟨opcode, hclear, isRange_iff.mp hrange⟩ low high) (ih rest hread)
      rwa [← WrittenTest.testOf_opcode] at hnext
  | case9 offset wanted opcode _ hlegal _ relation hrelation operand rest ih =>
      intro instructions h
      obtain ⟨rest, hread, rfl⟩ := prepend_eq_ok.mp h
      obtain ⟨rfl, hclear⟩ := legal_iff.mp hlegal
      have hnext := Alternates.test
        (.single relation ⟨opcode, hclear, relation?_eq_some_iff.mp hrelation⟩ operand)
        (ih rest hread)
      rwa [← WrittenTest.testOf_opcode] at hnext

/-- The scan accepts what alternates. -/
theorem readInstructions_eq_ok_iff {offset : Nat} {wanted : Bool} {bytes : Bytes}
    {instructions : List Instruction} :
    readInstructions offset wanted bytes = .ok instructions
      ↔ Alternates wanted bytes instructions :=
  ⟨alternates_of_readInstructions offset wanted bytes instructions,
    fun h => h.readInstructions offset⟩

/-- No bytes begin with a test if there are none. -/
theorem Alternates.ne_nil {bytes : Bytes} {instructions : List Instruction}
    (h : Alternates true bytes instructions) : bytes ≠ [] := by
  cases h with
  | test written _ => exact List.cons_ne_nil _ _

/-- Either there are no bytes, or they begin and end with a test. -/
theorem Program.ofBytes_eq_ok {bytes : Bytes} {program : Program} :
    Program.ofBytes bytes = .ok program
      ↔ (bytes = [] ∧ program = {}) ∨ Alternates true bytes program.instructions := by
  unfold ofBytes
  cases bytes with
  | nil =>
      constructor
      · intro h
        cases h
        exact .inl ⟨rfl, rfl⟩
      · rintro (⟨-, rfl⟩ | h)
        · rfl
        · exact absurd rfl h.ne_nil
  | cons opcode rest =>
      rw [List.isEmpty_cons, if_neg Bool.false_ne_true, ← readInstructions_eq_ok_iff]
      constructor
      · intro h
        cases hread : readInstructions 0 true (opcode :: rest) with
        | error e =>
            rw [hread] at h
            cases h
        | ok instructions =>
            rw [hread] at h
            cases h
            exact .inr rfl
      · rintro (⟨h, -⟩ | h)
        · cases h
        · rw [h]
          rfl

/-! ## Rules -/

/-- The separator in front of a test that is joined to others. -/
def Connective.opcode : Connective → UInt8
  | .and => 0xFD
  | .or => 0xFE

/-- A rule as it is written. -/
structure WrittenRule where
  first : WrittenTest
  others : List (Connective × WrittenTest) := []

namespace WrittenRule

/-- The first test, and the others behind their separators. -/
def bytes (written : WrittenRule) : Bytes :=
  written.first.bytes
    ++ written.others.flatMap fun (connective, other) => connective.opcode :: other.bytes

/-- The rule that is written. -/
def rule (written : WrittenRule) : Rule where
  first := written.first.test
  others := written.others.map fun (connective, other) => (connective, other.test)

end WrittenRule

/-- The bytes of some rules, with a separator in front of all but the
first. -/
def writtenBytes : List WrittenRule → Bytes
  | [] => []
  | rule :: rules => rule.bytes ++ rules.flatMap fun next => 0xFF :: next.bytes

theorem Program.instructions_ofRules_cons (rule : Rule) (rules : List Rule) :
    (ofRules (rule :: rules)).instructions
      = rule.instructions ++ rules.flatMap fun next => .newRule :: next.instructions := by
  induction rules generalizing rule with
  | nil => simp [ofRules]
  | cons next rules ih =>
      have hnext := ih next
      simp only [ofRules, List.map_cons] at hnext
      simp [ofRules, hnext]

theorem Alternates.others {rest : Bytes} {instructions : List Instruction}
    (h : Alternates false rest instructions) (others : List (Connective × WrittenTest)) :
    Alternates false
      (others.flatMap (fun (connective, other) => connective.opcode :: other.bytes) ++ rest)
      (others.flatMap (fun (connective, other) => [.combine connective, .test other.test])
        ++ instructions) := by
  induction others with
  | nil => exact h
  | cons next others ih =>
      obtain ⟨connective, other⟩ := next
      have hseparator : separator? connective.opcode = some (.combine connective) := by
        cases connective <;> rfl
      simpa using Alternates.separator hseparator (.test other ih)

theorem Alternates.rule {rest : Bytes} {instructions : List Instruction}
    (h : Alternates false rest instructions) (written : WrittenRule) :
    Alternates true (written.bytes ++ rest) (written.rule.instructions ++ instructions) := by
  have hfirst := Alternates.test written.first (h.others written.others)
  simpa [WrittenRule.bytes, WrittenRule.rule, Rule.instructions, List.flatMap_map] using hfirst

theorem alternates_nextRules (rules : List WrittenRule) :
    Alternates false (rules.flatMap fun next => 0xFF :: next.bytes)
      (rules.flatMap fun next => .newRule :: next.rule.instructions) := by
  induction rules with
  | nil => exact .done
  | cons next rules ih => simpa using Alternates.separator rfl (ih.rule next)

theorem alternates_writtenBytes (rule : WrittenRule) (rules : List WrittenRule) :
    Alternates true (writtenBytes (rule :: rules))
      (Program.ofRules ((rule :: rules).map WrittenRule.rule)).instructions := by
  have hrules := (alternates_nextRules rules).rule rule
  rw [List.map_cons, Program.instructions_ofRules_cons, List.flatMap_map]
  exact hrules

/-- Bytes are those of some rules, and these are their instructions. -/
def AreRules (bytes : Bytes) (instructions : List Instruction) : Prop :=
  ∃ rule rules, bytes = writtenBytes (rule :: rules)
    ∧ instructions = (Program.ofRules ((rule :: rules).map WrittenRule.rule)).instructions

theorem eq_of_separator? {opcode : UInt8} {separator : Instruction}
    (h : separator? opcode = some separator) :
    (∃ connective : Connective, opcode = connective.opcode ∧ separator = .combine connective)
      ∨ opcode = 0xFF ∧ separator = .newRule := by
  unfold separator? at h
  split at h
  · next hopcode =>
    cases h
    exact .inl ⟨.and, hopcode, rfl⟩
  · split at h
    · next hopcode =>
      cases h
      exact .inl ⟨.or, hopcode, rfl⟩
    · split at h
      · next hopcode =>
        cases h
        exact .inr ⟨hopcode, rfl⟩
      · cases h

/-- Behind a test, a connective puts the next test into the same rule, and
0xFF begins another one. -/
theorem AreRules.behind {bytes : Bytes} {instructions : List Instruction}
    (h : AreRules bytes instructions) {opcode : UInt8} {separator : Instruction}
    (hseparator : separator? opcode = some separator) (first : WrittenTest) :
    AreRules (first.bytes ++ opcode :: bytes) (.test first.test :: separator :: instructions) := by
  obtain ⟨⟨next, others⟩, rules, rfl, rfl⟩ := h
  rcases eq_of_separator? hseparator with ⟨connective, rfl, rfl⟩ | ⟨rfl, rfl⟩
  · refine ⟨⟨first, (connective, next) :: others⟩, rules, ?_, ?_⟩
    · simp [writtenBytes, WrittenRule.bytes]
    · simp [Program.instructions_ofRules_cons, WrittenRule.rule, Rule.instructions]
  · refine ⟨⟨first, []⟩, ⟨next, others⟩ :: rules, ?_, ?_⟩
    · simp [writtenBytes, WrittenRule.bytes]
    · simp [Program.instructions_ofRules_cons, WrittenRule.rule, Rule.instructions]

/-- What alternates falls into rules; if it begins behind a test, then
together with that test. -/
theorem Alternates.areRules {wanted : Bool} {bytes : Bytes} {instructions : List Instruction}
    (h : Alternates wanted bytes instructions) :
    if wanted then AreRules bytes instructions
    else ∀ first : WrittenTest,
      AreRules (first.bytes ++ bytes) (.test first.test :: instructions) := by
  induction h with
  | done =>
      intro first
      refine ⟨⟨first, []⟩, [], ?_, ?_⟩
      · simp [writtenBytes, WrittenRule.bytes]
      · simp [Program.instructions_ofRules_cons, WrittenRule.rule, Rule.instructions]
  | test written _ ih => exact ih written
  | separator hseparator _ ih =>
      intro first
      exact AreRules.behind ih hseparator first

theorem Program.exists_written {bytes : Bytes} {program : Program}
    (h : Alternates true bytes program.instructions) :
    ∃ rule rules, bytes = writtenBytes (rule :: rules)
      ∧ program = .ofRules ((rule :: rules).map WrittenRule.rule) := by
  obtain ⟨rule, rules, hbytes, hinstructions⟩ := h.areRules
  refine ⟨rule, rules, hbytes, ?_⟩
  cases program
  cases hinstructions
  rfl

/-- The bytes of a program are those of any number of written rules, and its
instructions are the tests and separators of these, in their order.  Of no
other bytes a program can be read. -/
theorem Program.ofBytes_eq_ok_iff (bytes : Bytes) (program : Program) :
    Program.ofBytes bytes = .ok program
      ↔ ∃ rules : List WrittenRule, bytes = writtenBytes rules
          ∧ program = .ofRules (rules.map WrittenRule.rule) := by
  rw [ofBytes_eq_ok]
  constructor
  · rintro (⟨rfl, rfl⟩ | halternates)
    · exact ⟨[], rfl, rfl⟩
    · obtain ⟨rule, rules, hbytes, hprogram⟩ := exists_written halternates
      exact ⟨rule :: rules, hbytes, hprogram⟩
  · rintro ⟨rules, rfl, rfl⟩
    cases rules with
    | nil => exact .inl ⟨rfl, rfl⟩
    | cons rule rules => exact .inr (alternates_writtenBytes rule rules)

end MessageCatalog.Plural
