/-
# `MessageCatalog.Proofs.RuleSelection` — the first rule that holds

A plural program is run in one pass over its instructions, with a value and a
connective that waits for its second operand.  Read as rules it says

    the form of n  =  the position of the first rule that holds of n,

where a rule joins its tests strictly from left to right, and the number of
the rules is the form of a count of which no rule holds.

The pass agrees with the reading rule by rule: behind the instructions of a
rule the value is that of the rule and no connective waits, whatever follows.
So it does on programs that were decoded, for these are the instructions of
rules.
-/
import MessageCatalog.Proofs.PluralForms
import MessageCatalog.Proofs.RuleGrammar

namespace MessageCatalog.Plural

/-! ## Rules in a run -/

theorem run_others (n form : Nat) (others : List (Connective × Test)) (rest : List Instruction) :
    ∀ value, run n form (some value) none
        (others.flatMap (fun (connective, test) => [.combine connective, .test test]) ++ rest)
      = run n form
          (some (others.foldl
            (fun value (connective, test) => connective.join value (test.holds n)) value))
          none rest := by
  induction others with
  | nil =>
      intro value
      rfl
  | cons other others ih =>
      intro value
      exact ih (other.1.join value (other.2.holds n))

/-- Behind a rule a run has its value, and no connective waits. -/
theorem run_rule (n form : Nat) (rule : Rule) (rest : List Instruction) :
    run n form none none (rule.instructions ++ rest)
      = run n form (some (rule.holds n)) none rest :=
  run_others n form rule.others rest (rule.first.holds n)

/-- A run that has the value of a rule and goes on with more rules. -/
theorem run_nextRules (n : Nat) (rules : List Rule) :
    ∀ form value, run n form (some value) none
        (rules.flatMap fun next => .newRule :: next.instructions)
      = if value then form else form + 1 + selected rules n := by
  induction rules with
  | nil =>
      intro form value
      cases value <;> rfl
  | cons next rules ih =>
      intro form value
      cases value with
      | true => rfl
      | false =>
          have hnext : run n form (some false) none
              ((next :: rules).flatMap fun next => .newRule :: next.instructions)
                = run n (form + 1) none none
                    (next.instructions
                      ++ rules.flatMap fun next => .newRule :: next.instructions) := rfl
          rw [hnext, run_rule, ih, selected, selected, List.findIdx_cons]
          cases next.holds n with
          | true => rfl
          | false =>
              rw [if_neg Bool.false_ne_true, if_neg Bool.false_ne_true, cond_false]
              omega

/-- Running the program of some rules selects the first one that holds. -/
theorem Program.evaluate_ofRules (rules : List Rule) (n : Nat) :
    (ofRules rules).evaluate n = selected rules n := by
  cases rules with
  | nil => rfl
  | cons rule rules =>
      have hfull : (ofRules (rule :: rules)).isEmpty = false := by
        rw [isEmpty, instructions_ofRules_cons]
        rfl
      rw [evaluate, hfull, if_neg Bool.false_ne_true, instructions_ofRules_cons, run_rule,
        run_nextRules, selected, selected, List.findIdx_cons]
      cases rule.holds n with
      | true => rfl
      | false =>
          rw [if_neg Bool.false_ne_true, cond_false]
          omega

/-! ## Rules in a program -/

theorem newRule_not_mem_instructions (rule : Rule) : .newRule ∉ rule.instructions := by
  rw [Rule.instructions, List.mem_cons, List.mem_flatMap]
  rintro (h | ⟨other, -, h⟩)
  · cases h
  · simp at h

/-- The rules of a program are what lies between its separators. -/
theorem Program.splitOn_ofRules (rule : Rule) (rules : List Rule) :
    (ofRules (rule :: rules)).instructions.splitOn .newRule
      = (rule :: rules).map Rule.instructions := by
  refine List.splitOn_intercalate _ ?_ (List.cons_ne_nil _ _)
  intro instructions hmem
  obtain ⟨rule, -, rfl⟩ := List.mem_map.mp hmem
  exact newRule_not_mem_instructions rule

/-- Cut at its separators, a program that was read from bytes and is not
empty falls into rules, and it selects the first one that holds of a count,
or the form behind them all if none does.  That is one of its forms. -/
theorem Program.evaluate_eq_selected {bytes : Bytes} {program : Program}
    (h : Program.ofBytes bytes = .ok program) (hprogram : program ≠ {}) (n : Nat) :
    ∃ rules : List Rule, rules.map Rule.instructions = program.instructions.splitOn .newRule
      ∧ program.evaluate n = selected rules n
      ∧ program.evaluate n < program.formCount := by
  rcases ofBytes_eq_ok.mp h with ⟨-, hempty⟩ | halternates
  · exact absurd hempty hprogram
  · obtain ⟨rule, rules, -, rfl⟩ := exists_written halternates
    refine ⟨(rule :: rules).map WrittenRule.rule, ?_, evaluate_ofRules _ n,
      evaluate_lt_formCount _ n⟩
    rw [List.map_cons, splitOn_ofRules]

/-- Two rules: one or two, joined with two behind it, and numbers that begin
with a group of one. -/
def joinedInOrder : Bytes :=
  [0x01, 0x01, 0xFE, 0x01, 0x02, 0xFD, 0x01, 0x02, 0xFF, 0x41, 0x01]

theorem Program.evaluate_eq_selected_joinedInOrder :
    ∃ program, Program.ofBytes joinedInOrder = .ok program ∧ program ≠ {}
      ∧ ∃ rules : List Rule, rules.map Rule.instructions = program.instructions.splitOn .newRule
        ∧ program.evaluate 1 = selected rules 1
        ∧ program.evaluate 1 < program.formCount := by
  have h : Program.ofBytes joinedInOrder = .ok (.ofRules [
      ⟨{ comparison := .single .equal 1 },
        [(.or, { comparison := .single .equal 2 }), (.and, { comparison := .single .equal 2 })]⟩,
      ⟨{ comparison := .single .equal 1, part := .leadingGroup }, []⟩]) := rfl
  exact ⟨_, h, by decide, Program.evaluate_eq_selected h (by decide) 1⟩

end MessageCatalog.Plural
