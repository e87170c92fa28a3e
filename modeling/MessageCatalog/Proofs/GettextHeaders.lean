/-
# `MessageCatalog.Proofs.GettextHeaders` — rules and the headers beside them

A row of the table says twice which form belongs to a count, by its rules and
by the gettext header that it quotes.  The two agree,

    form of n under the rules  =  value of the header at n,

in all rows but two.  The Macedonian rules ask how a count ends and the
header asks about its last two digits, so they part at 11, 21 and the like;
and the Tagalog rules take zero for a singular, which the header does not.

Of a count neither side sees more than its `representative`: the count
itself up to twenty, and beyond that its last two digits.  So it is enough to
compare them on 121 counts.
-/
import Mathlib.Data.List.Basic
import MessageCatalog.Plural.Gettext
import MessageCatalog.Proofs.RuleSelection

namespace MessageCatalog.Plural

open Gettext

/-! ## Representative counts -/

/-- A count that stands for all with the same last two digits, if it is not
told apart from them by its size. -/
def representative (n : Nat) : Nat := if n ≤ 20 then n else 100 + n % 100

/-- All counts that represent some count. -/
def representatives : List Nat := List.range 21 ++ (List.range 100).map (100 + ·)

theorem representative_mem (n : Nat) : representative n ∈ representatives := by
  unfold representative representatives
  rw [List.mem_append]
  split
  · next h => exact .inl (List.mem_range.mpr (by omega))
  · exact .inr (List.mem_map_of_mem (List.mem_range.mpr (Nat.mod_lt n (by decide))))

theorem representative_mod {d : Nat} (h : d ∣ 100) (n : Nat) :
    representative n % d = n % d := by
  unfold representative
  split
  · rfl
  · obtain ⟨k, hk⟩ := h
    rw [Nat.add_mod, Nat.mod_mod_of_dvd n ⟨k, hk⟩, hk, Nat.mul_mod_right, Nat.zero_add, Nat.mod_mod]

/-- A small number compares in the same way with a count and with its
representative. -/
theorem compare_representative {k : Nat} (h : k ≤ 20) (n : Nat) :
    (representative n = k ↔ n = k) ∧ (representative n < k ↔ n < k)
      ∧ (k < representative n ↔ k < n) := by
  unfold representative
  split <;> omega

/-! ## Rules -/

/-- The operands of a comparison are small. -/
def Comparison.isSmall : Comparison → Bool
  | .single _ operand => operand.toNat ≤ 20
  | .between low high => low.toNat ≤ 20 && high.toNat ≤ 20

/-- A test sees no more of a count than its representative. -/
def Test.isCoarse (test : Test) : Bool :=
  match test.part with
  | .whole => test.comparison.isSmall
  | .lastDigit | .lastTwoDigits => true
  | .leadingGroup => false

/-- So do all tests of a rule. -/
def Rule.isCoarse (rule : Rule) : Bool :=
  rule.first.isCoarse && rule.others.all fun other => other.2.isCoarse

theorem Comparison.holds_representative {comparison : Comparison} (h : comparison.isSmall)
    (n : Nat) : comparison.holds (representative n) = comparison.holds n := by
  cases comparison with
  | single relation operand =>
      obtain ⟨hequal, hbelow, habove⟩ := compare_representative (of_decide_eq_true h) n
      cases relation with
      | equal => exact decide_eq_decide.mpr hequal
      | below => exact decide_eq_decide.mpr hbelow
      | atMost => exact decide_eq_decide.mpr (by omega)
  | between low high =>
      rw [isSmall, Bool.and_eq_true, decide_eq_true_eq, decide_eq_true_eq] at h
      obtain ⟨-, hlow, -⟩ := compare_representative h.1 n
      obtain ⟨-, -, hhigh⟩ := compare_representative h.2 n
      simp only [holds, ← Nat.not_lt, hlow, hhigh]

theorem Test.holds_representative {test : Test} (h : test.isCoarse) (n : Nat) :
    test.holds (representative n) = test.holds n := by
  obtain ⟨comparison, part, negated⟩ := test
  unfold holds
  congr 1
  cases part with
  | whole => exact Comparison.holds_representative h n
  | lastDigit => exact congrArg comparison.holds (representative_mod (by decide) n)
  | lastTwoDigits => exact congrArg comparison.holds (representative_mod (by decide) n)
  | leadingGroup => exact absurd h Bool.false_ne_true

theorem Rule.holds_representative {rule : Rule} (h : rule.isCoarse) (n : Nat) :
    rule.holds (representative n) = rule.holds n := by
  rw [isCoarse, Bool.and_eq_true, List.all_eq_true] at h
  rw [holds, holds, Test.holds_representative h.1]
  refine List.foldl_ext _ _ _ ?_
  intro value other hother
  exact congrArg (other.1.join value) (Test.holds_representative (h.2 other hother) n)

theorem selected_representative {rules : List Rule} (h : ∀ rule ∈ rules, rule.isCoarse) (n : Nat) :
    selected rules (representative n) = selected rules n := by
  induction rules with
  | nil => rfl
  | cons rule rules ih =>
      have hrest := ih fun next hnext => h next (List.mem_cons_of_mem _ hnext)
      rw [selected, selected, List.findIdx_cons, List.findIdx_cons,
        Rule.holds_representative (h rule List.mem_cons_self)]
      exact congrArg (fun next => cond (rule.holds n) 0 (next + 1)) hrest

/-! ## Headers -/

namespace Gettext

/-- An operation on the count and this number sees no more of the count than
its representative. -/
def Operation.isCoarse : Operation → Nat → Bool
  | .remainder, divisor => decide (divisor ∣ 100)
  | _, operand => operand ≤ 20

/-- The value of an expression does not change when a count is replaced by
its representative. -/
def Expression.isCoarse : Expression → Bool
  | .count => false
  | .literal _ => true
  | .binary operation .count (.literal operand) => operation.isCoarse operand
  | .binary _ left right => left.isCoarse && right.isCoarse
  | .conditional condition yes no => condition.isCoarse && yes.isCoarse && no.isCoarse

theorem Operation.apply_representative {operation : Operation} {operand : Nat}
    (h : operation.isCoarse operand) (n : Nat) :
    operation.apply (representative n) operand = operation.apply n operand := by
  have hzero : (representative n == 0) = (n == 0) :=
    decide_eq_decide.mpr (compare_representative (Nat.zero_le 20) n).1
  cases operation with
  | remainder => exact representative_mod (of_decide_eq_true h) n
  | disjunction | conjunction => simp only [apply, bne, hzero]
  | equal | different | below | above | atMost | atLeast =>
      obtain ⟨hequal, hbelow, habove⟩ := compare_representative (of_decide_eq_true h) n
      have hsame : (representative n == operand) = (n == operand) := decide_eq_decide.mpr hequal
      simp only [apply, bne, hsame, hbelow, habove, ← Nat.not_lt]

theorem Expression.eval_representative (n : Nat) (expression : Expression)
    (h : expression.isCoarse) : expression.eval (representative n) = expression.eval n := by
  fun_induction Expression.isCoarse expression with
  | case1 => exact absurd h Bool.false_ne_true
  | case2 value => rfl
  | case3 operation operand => exact Operation.apply_representative h n
  | case4 operation left right _ ihleft ihright =>
      rw [Bool.and_eq_true] at h
      rw [eval, eval, ihleft h.1, ihright h.2]
  | case5 condition yes no ihcondition ihyes ihno =>
      rw [Bool.and_eq_true, Bool.and_eq_true] at h
      rw [eval, eval, ihcondition h.1.1, ihyes h.1.2, ihno h.2]

end Gettext

/-! ## The table -/

/-- The counts to which the rules of a row and its header give different
forms. -/
def Row.Disagrees (row : Row) (n : Nat) : Prop :=
  ((n % 10 = 1 ∨ n % 10 = 2) ∧ n % 100 ≠ n % 10 ∧ row.rules = macedonian)
    ∨ (n = 0 ∧ row.rules = tagalog)

instance (row : Row) (n : Nat) : Decidable (row.Disagrees n) :=
  inferInstanceAs (Decidable (_ ∨ _))

/-- What is compared of a row and its header. -/
structure Row.IsComparedTo (row : Row) (header : Header) : Prop where
  forms : header.forms = row.formCount
  coarse_rules : ∀ rule ∈ row.rules, rule.isCoarse
  coarse_plural : header.plural.isCoarse
  select_iff : ∀ m ∈ representatives, selected row.rules m = header.select m ↔ ¬ row.Disagrees m

instance (row : Row) (header : Header) : Decidable (row.IsComparedTo header) :=
  decidable_of_iff
    (header.forms = row.formCount ∧ (∀ rule ∈ row.rules, rule.isCoarse) ∧ header.plural.isCoarse
      ∧ ∀ m ∈ representatives, selected row.rules m = header.select m ↔ ¬ row.Disagrees m)
    ⟨fun ⟨a, b, c, d⟩ => ⟨a, b, c, d⟩, fun ⟨a, b, c, d⟩ => ⟨a, b, c, d⟩⟩

theorem Gettext.Header.parse?_ofList (text : List Char) :
    Header.parse? (String.ofList text) = Header.ofChars? text := by
  rw [Header.parse?, String.toList_ofList]

theorem table_isComparedTo :
    ∀ row ∈ table, ∃ header ∈ Header.parse? row.gettext, row.IsComparedTo header := by
  -- the kernel is slow to read the characters of a text literal
  simp only [table, List.forall_mem_cons]
  repeat rw [Header.parse?_ofList]
  decide +kernel

theorem Row.disagrees_representative (row : Row) (n : Nat) :
    row.Disagrees (representative n) ↔ row.Disagrees n := by
  unfold Disagrees
  rw [representative_mod (d := 10) (by decide), representative_mod (d := 100) (by decide),
    (compare_representative (Nat.zero_le 20) n).1]

theorem Row.formIndex_bytes {row : Row} (h : row ∈ table) (n : Nat) :
    formIndex row.bytes n = selected row.rules n := by
  rw [formIndex_eq_evaluate (table_names_forms row h).1]
  exact Program.evaluate_ofRules row.rules n

theorem Row.IsComparedTo.formIndex_eq_select_iff {row : Row} {header : Header}
    (h : row.IsComparedTo header) (hrow : row ∈ table) (n : Nat) :
    formIndex row.bytes n = header.select n ↔ ¬ row.Disagrees n := by
  rw [row.formIndex_bytes hrow, Header.select, ← selected_representative h.coarse_rules,
    ← header.plural.eval_representative n h.coarse_plural, ← row.disagrees_representative n]
  exact h.select_iff (representative n) (representative_mem n)

theorem exists_row_of_lookupCode {code : String} {rules : List Rule}
    (h : (lookupCode code).map Row.rules = some rules) :
    ∃ row, lookupCode code = some row ∧ row ∈ table ∧ row.rules = rules := by
  obtain ⟨row, hrow, hrules⟩ := Option.map_eq_some_iff.mp h
  exact ⟨row, hrow, mem_table_of_lookupCode hrow, hrules⟩

/-- The header of a row can be read, and it has as many forms as the row
names.  The program of the row selects the form that the header gives to a
count, unless the row is Macedonian and the count ends in 1 or 2 behind a
digit other than zero, or it is Tagalog and the count is zero. -/
theorem table_agrees_with_headers :
    ∀ row ∈ table, ∃ header, Header.parse? row.gettext = some header
      ∧ header.forms = row.formCount
      ∧ ∀ n, formIndex row.bytes n = header.select n ↔ ¬ row.Disagrees n := by
  intro row hrow
  obtain ⟨header, hheader, hcompared⟩ := table_isComparedTo row hrow
  exact ⟨header, hheader, hcompared.forms, hcompared.formIndex_eq_select_iff hrow⟩

theorem table_agrees_with_headers_tagalog :
    ∃ row, lookupCode "tl" = some row ∧ row ∈ table
      ∧ ∃ header, Header.parse? row.gettext = some header ∧ header.forms = row.formCount
        ∧ formIndex row.bytes 0 ≠ header.select 0 ∧ formIndex row.bytes 14 = header.select 14 := by
  have htl : (lookupCode "tl").map Row.rules = some tagalog := by decide +kernel
  obtain ⟨row, hlookup, hrow, hrules⟩ := exists_row_of_lookupCode htl
  obtain ⟨header, hheader, hforms, hagree⟩ := table_agrees_with_headers row hrow
  refine ⟨row, hlookup, hrow, header, hheader, hforms, ?_, (hagree 14).mpr ?_⟩
  · intro heq
    exact (hagree 0).mp heq (.inr ⟨rfl, hrules⟩)
  · rintro (⟨hdigit, -⟩ | ⟨hzero, -⟩) <;> omega

/-- In Macedonian, eleven has the form of one, but not in the header. -/
theorem formIndex_ne_select_macedonian :
    ∃ row, lookupCode "mk" = some row ∧ row ∈ table
      ∧ ∃ header, Header.parse? row.gettext = some header
        ∧ formIndex row.bytes 11 = 0 ∧ header.select 11 ≠ 0 := by
  have hmk : (lookupCode "mk").map Row.rules = some macedonian := by decide +kernel
  obtain ⟨row, hlookup, hrow, hrules⟩ := exists_row_of_lookupCode hmk
  obtain ⟨header, hheader, hcompared⟩ := table_isComparedTo row hrow
  have hform : formIndex row.bytes 11 = 0 := by
    rw [row.formIndex_bytes hrow, hrules]
    rfl
  refine ⟨row, hlookup, hrow, header, hheader, hform, ?_⟩
  intro hselect
  have hdiffers : row.Disagrees 11 := .inl ⟨.inl rfl, by decide, hrules⟩
  exact (hcompared.formIndex_eq_select_iff hrow 11).mp (hform.trans hselect.symm) hdiffers

end MessageCatalog.Plural
