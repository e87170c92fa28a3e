/-
# `MessageCatalog.Plural.Selection` — choosing a plural form

A program is run over its instructions in one pass.  The state is the
number of the form whose rule is being read, the value of that rule so far
and a connective that waits for its second operand.  The first rule that
holds selects its form; when none does, the form behind the last rule is
selected.

`Rule.holds` and `selected` say the same without a state: a rule is its
first test, joined from left to right with the others, and the form is the
position of the first rule that holds.
-/
import MessageCatalog.Plural.Program

namespace MessageCatalog.Plural

/-! ## Tests -/

/-- The leading group of three digits of a number. -/
def leadingGroup (n : Nat) : Nat :=
  if n < 1000 then n else leadingGroup (n / 1000)

/-- The part of a number that a test looks at. -/
def Part.of : Part → Nat → Nat
  | .whole, n => n
  | .lastDigit, n => n % 10
  | .lastTwoDigits, n => n % 100
  | .leadingGroup, n => Plural.leadingGroup n

/-- A comparison is true of a number. -/
def Comparison.holds : Comparison → Nat → Bool
  | .single .equal operand, n => n == operand.toNat
  | .single .below operand, n => n < operand.toNat
  | .single .atMost operand, n => n ≤ operand.toNat
  | .between low high, n => low.toNat ≤ n && n ≤ high.toNat

/-- A test is true of a count. -/
def Test.holds (test : Test) (n : Nat) : Bool :=
  test.comparison.holds (test.part.of n) != test.negated

/-- Joins two truth values. -/
def Connective.join : Connective → Bool → Bool → Bool
  | .and, a, b => a && b
  | .or, a, b => a || b

/-! ## Running a program -/

/-- The value of a rule after one more test.  Without a value and a
connective there is nothing to join. -/
def joined (value : Option Bool) (waiting : Option Connective) (term : Bool) : Bool :=
  match value, waiting with
  | some value, some connective => connective.join value term
  | _, _ => term

/-- Runs the instructions of a program on a count. -/
def run (n form : Nat) (value : Option Bool) (waiting : Option Connective) :
    List Instruction → Nat
  | [] => if value = some true then form else form + 1
  | .test test :: rest => run n form (some (joined value waiting (test.holds n))) none rest
  | .combine connective :: rest => run n form value (some connective) rest
  | .newRule :: rest => if value = some true then form else run n (form + 1) none waiting rest

/-- The plural form of a count. -/
def Program.evaluate (program : Program) (n : Nat) : Nat :=
  if program.isEmpty then 0 else run n 0 none none program.instructions

/-- The plural form of a count under the bytes of a program.  Bytes that are
no program select the first form. -/
def formIndex (rules : Bytes) (n : Nat) : Nat :=
  match Program.ofBytes rules with
  | .ok program => program.evaluate n
  | .error _ => 0

/-! ## Rules -/

/-- A rule: a test, and tests that are joined to it one after the other. -/
structure Rule where
  first : Test
  others : List (Connective × Test) := []
deriving DecidableEq, Repr

/-- A rule is true of a count. -/
def Rule.holds (rule : Rule) (n : Nat) : Bool :=
  rule.others.foldl (fun value (connective, test) => connective.join value (test.holds n))
    (rule.first.holds n)

/-- The instructions of a rule. -/
def Rule.instructions (rule : Rule) : List Instruction :=
  .test rule.first ::
    rule.others.flatMap fun (connective, test) => [.combine connective, .test test]

/-- The program of some rules. -/
def Program.ofRules (rules : List Rule) : Program :=
  ⟨((rules.map Rule.instructions).intersperse [.newRule]).flatten⟩

/-- The position of the first rule that holds, or the number of the
rules. -/
def selected (rules : List Rule) (n : Nat) : Nat := rules.findIdx fun rule => rule.holds n

end MessageCatalog.Plural
