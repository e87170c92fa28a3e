/-
# `MessageCatalog.Proofs.PluralForms` — as many forms as the table names

Two sources say how many plural forms a language has.  The translations of
an entry are counted by the names in the table; at run time a program is
read from the bytes of the rules and selects a form.  They agree in this
sense: whatever the count, the form that is selected is one of those that
are named.

A run begins a new form at each separator and ends at most one behind the
last, so it is bounded by the number of separators.  That this bound is the
number of the names is a property of the table, checked row by row.
-/
import MessageCatalog.Compiled.Encode

namespace MessageCatalog.Plural

/-! ## Runs -/

/-- A run goes on by one form at every separator. -/
theorem run_le (n : Nat) (instructions : List Instruction) :
    ∀ (form : Nat) (value : Option Bool) (waiting : Option Connective),
      run n form value waiting instructions ≤ form + instructions.count .newRule + 1 := by
  induction instructions with
  | nil =>
      intro form value waiting
      rw [run]
      split <;> omega
  | cons instruction rest ih =>
      intro form value waiting
      cases instruction with
      | test test =>
          rw [run, List.count_cons_of_ne (by simp)]
          exact ih form _ _
      | combine connective =>
          rw [run, List.count_cons_of_ne (by simp)]
          exact ih form _ _
      | newRule =>
          rw [run, List.count_cons_self]
          split
          · omega
          · have hrest := ih (form + 1) none waiting
            omega

/-- A program selects one of its forms. -/
theorem Program.evaluate_lt_formCount (program : Program) (n : Nat) :
    program.evaluate n < program.formCount := by
  unfold evaluate formCount
  split
  · exact Nat.zero_lt_one
  · have hrun := run_le n program.instructions 0 none none
    omega

/-! ## The table -/

/-- The bytes of a row are those of its program, and it names a form for
each that the program tells apart. -/
theorem table_names_forms :
    ∀ row ∈ table, (Program.ofBytes row.bytes).toOption = some row.program
      ∧ row.program.formCount = row.formCount := by
  decide +kernel

theorem formIndex_eq_evaluate {rules : Bytes} {program : Program}
    (h : (Program.ofBytes rules).toOption = some program) (n : Nat) :
    formIndex rules n = program.evaluate n := by
  unfold formIndex
  cases hread : Program.ofBytes rules with
  | error e => rw [hread] at h; cases h
  | ok read => rw [hread] at h; cases h; rfl

theorem mem_table_of_lookup {language : Language} {territory : Option Territory} {row : Row}
    (h : lookup language territory = some row) : row ∈ table := by
  unfold lookup at h
  split at h
  · next hfound =>
    cases h
    exact List.mem_of_find?_eq_some hfound
  · exact List.mem_of_find?_eq_some h

theorem mem_table_of_lookupCode {code : String} {row : Row} (h : lookupCode code = some row) :
    row ∈ table := by
  unfold lookupCode at h
  split at h
  · exact mem_table_of_lookup h
  · cases h

/-- The rules that are compiled for a language select one of the forms that
it has; a single one if it is not known. -/
theorem formIndex_ruleBlock_lt (language : String) (n : Nat) :
    formIndex (Compiled.ruleBlock language) n < (formCount? language).getD 1 := by
  unfold Compiled.ruleBlock formCount?
  cases hrow : lookupCode language with
  | none => exact Nat.zero_lt_one
  | some row =>
      obtain ⟨hbytes, hforms⟩ := table_names_forms row (mem_table_of_lookupCode hrow)
      show formIndex row.bytes n < row.formCount
      rw [formIndex_eq_evaluate hbytes, ← hforms]
      exact row.program.evaluate_lt_formCount n

end MessageCatalog.Plural
