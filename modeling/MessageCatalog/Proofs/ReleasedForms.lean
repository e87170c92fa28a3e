/-
# `MessageCatalog.Proofs.ReleasedForms` — plural look-ups after a release

A release folds duplicates, fits the translations of what is left and
compiles it.  A record is made from a group of duplicates: of its first entry,
with the translations of the first one that is translated
(`Group.fitted`).  Whether it is plural is a matter of the first entry alone:

    first entry     translations        a look-up with a count
    plural          one for each form   never misses
    not plural      one                 misses the other forms

and it makes no difference for this whether the entry that gave the
translations is plural.  In `lending` a plural entry gives its translations
to one that is not, and all but one of them are cut off.

A miss of the record is not always a miss of the look-up, since another record
may answer in its place (`Compiled.IsAnswered`).
-/
import MessageCatalog.Proofs.FoldedGroups
import MessageCatalog.Proofs.Lookup
import MessageCatalog.Release.Basic

namespace MessageCatalog

/-! ## Fitted entries -/

theorem length_resized (length : Nat) (translations : List String) :
    (resized length translations).length = length := by
  rw [resized, List.length_append, List.length_take, List.length_replicate]
  omega

theorem Compiled.length_translationsOf (options : Compiled.Options) (entry : Entry) :
    (options.translationsOf entry).length = entry.translations.length := by
  unfold Options.translationsOf
  split
  · exact List.length_map _
  · rfl

/-- Where nothing is filled in an entry keeps its translations. -/
theorem Compiled.translationsOf_of_not_fillsIn {options : Compiled.Options}
    (h : options.fillsIn = false) (entry : Entry) :
    options.translationsOf entry = entry.translations := by
  rw [Options.translationsOf, h, Bool.and_false]
  rfl

/-- What a release stores of a group: its first entry, with as many
translations of the donor as the first entry needs. -/
def Group.fitted (forms : Nat) (group : Group) : Entry :=
  { group.entry with
    translations := resized (group.first.neededForms forms) group.donor.translations }

theorem Group.fitted_entry (forms : Nat) (group : Group) :
    group.entry.fitted forms = group.fitted forms := rfl

/-- Every entry that a release compiles comes from a group of duplicates. -/
theorem Catalog.exists_group_of_mem_prepared {catalog : Catalog} {removeIdentical : Bool}
    {entry : Entry} (h : entry ∈ (catalog.prepared removeIdentical).entries) :
    ∃ group ∈ groupsOf catalog.entries, entry = group.fitted catalog.formCount := by
  have hforms : (catalog.narrowed removeIdentical).formCount = catalog.formCount := by
    cases removeIdentical <;> rfl
  obtain ⟨folded, hfolded, rfl⟩ := List.mem_map.mp h
  have hkept : folded ∈ catalog.foldDuplicates.1.entries := by
    cases removeIdentical with
    | false => exact hfolded
    | true => exact (List.mem_filter.mp hfolded).1
  rw [catalog.entries_foldDuplicates] at hkept
  obtain ⟨group, hgroup, rfl⟩ := List.mem_map.mp hkept
  exact ⟨group, hgroup, by rw [hforms, Group.fitted_entry]⟩

/-! ## Releases -/

theorem Catalog.release_bytes (options : Compiled.Options) (removeIdentical verbose : Bool)
    (file : Path) (catalog : Catalog) :
    (catalog.release options removeIdentical verbose file).bytes
      = (Compiled.compile options (catalog.prepared removeIdentical)).2.map
          Compiled.Compilation.bytes := rfl

section

variable {options : Compiled.Options} {removeIdentical verbose : Bool} {path : Path}
  {catalog : Catalog}

/-- A release is there if the prepared catalog compiles. -/
theorem Catalog.exists_release
    (h : ∃ compilation,
      (Compiled.compile options (catalog.prepared removeIdentical)).2 = .ok compilation) :
    ∃ bytes, (catalog.release options removeIdentical verbose path).bytes = .ok bytes := by
  obtain ⟨compilation, hcompile⟩ := h
  rw [Catalog.release_bytes]
  exact ⟨compilation.bytes, Compiled.map_eq_ok.mpr ⟨compilation, hcompile, rfl⟩⟩

/-- A release is read as the file of the prepared catalog. -/
theorem Catalog.parse_release {bytes : Bytes}
    (h : (catalog.release options removeIdentical verbose path).bytes = .ok bytes) :
    ∃ file, Compiled.File.parse bytes = .ok file
      ∧ Compiled.IsCompiled options (catalog.prepared removeIdentical) file := by
  rw [Catalog.release_bytes] at h
  obtain ⟨compilation, hcompile, rfl⟩ := Compiled.map_eq_ok.mp h
  exact Compiled.parse_compile hcompile

end

namespace Compiled

variable {options : Options} {catalog : Catalog} {file : File}

/-- Some record answers a key, with its comment or without, and has a
translation in a plural form. -/
def IsAnswered (options : Options) (catalog : Catalog) (key : Key) (form : Nat) : Prop :=
  ∃ item ∈ levelled options.saveMode (sortedRecords options catalog),
    (Answers item.1.1 item.2 key ∨ Answers item.1.1 item.2 key.commentless)
      ∧ form < item.1.2.length

theorem isAnswered_of_stored {key : Key} {translations : List String} {form : Nat}
    (hstored : (collect options catalog).lookup key = some translations)
    (hform : form < translations.length) : IsAnswered options catalog key form := by
  have hmem := mem_sortedRecords.mpr
    ((Records.lookup_eq_some (nodup_collect options catalog)).mp hstored)
  obtain ⟨level, hitem⟩ := exists_mem_levelled options.saveMode hmem
  exact ⟨_, hitem, .inl (answers_self key level), hform⟩

/-- What answers a key has its hash. -/
theorem IsAnswered.exists_record {key : Key} {form : Nat} (h : IsAnswered options catalog key form) :
    ∃ record ∈ collect options catalog,
      (record.1.hash = key.hash ∨ record.1.hash = key.commentless.hash)
        ∧ form < record.2.length := by
  obtain ⟨item, hitem, hanswers, hform⟩ := h
  have hmem := mem_sortedRecords.mp (mem_of_mem_levelled hitem)
  exact ⟨item.1, hmem, hanswers.imp And.left And.left, hform⟩

theorem isSome_answer_iff {key : Key} {form : Nat} {item : (Key × List String) × Level} :
    (answer key form item).isSome = true ↔ Answers item.1.1 item.2 key ∧ form < item.1.2.length := by
  unfold answer
  split
  · next hanswers => simp [hanswers]
  · next hanswers => simp [hanswers]

theorem IsCompiled.isSome_lookupExactly_iff (h : IsCompiled options catalog file) {key : Key}
    {form : Nat} :
    (file.lookupExactly key form).isSome = true
      ↔ ∃ item ∈ levelled options.saveMode (sortedRecords options catalog),
          Answers item.1.1 item.2 key ∧ form < item.1.2.length := by
  rw [h.lookupExactly, List.findSome?_isSome_iff]
  simp only [isSome_answer_iff]

/-- A look-up finds something exactly if a record answers it. -/
theorem IsCompiled.isSome_lookup_iff (h : IsCompiled options catalog file) {key : Key}
    (hcovers : file.coversContext key.context = true) (count : Option Nat) :
    (file.lookup key count).isSome = true
      ↔ IsAnswered options catalog key (file.formOf count) := by
  rw [lookup_of_covers hcovers, Option.isSome_or, Bool.or_eq_true, h.isSome_lookupExactly_iff]
  by_cases hempty : key.comment = ""
  · simp [IsAnswered, hempty, Key.commentless_eq_self hempty]
  · rw [if_neg hempty, h.isSome_lookupExactly_iff]
    simp only [IsAnswered, or_and_right, and_or_left, exists_or]

theorem IsCompiled.isSome_lookup_of_stored_iff (h : IsCompiled options catalog file) {key : Key}
    {translations : List String}
    (hstored : (collect options catalog).lookup key = some translations) (count : Option Nat) :
    (file.lookup key count).isSome = true
      ↔ IsAnswered options catalog key (file.formOf count) := by
  have hmem := mem_sortedRecords.mpr
    ((Records.lookup_eq_some (nodup_collect options catalog)).mp hstored)
  exact h.isSome_lookup_iff (h.coversContext hmem) count

end Compiled

theorem Group.length_fitted (options : Compiled.Options) (forms : Nat) (group : Group) :
    (options.translationsOf (group.fitted forms)).length
      = if group.first.plural then forms else 1 := by
  rw [Compiled.length_translationsOf]
  exact length_resized _ _

/-- The entry that took the key of a record comes from a group of
duplicates. -/
theorem Catalog.exists_group_of_stored {options : Compiled.Options} {removeIdentical : Bool}
    {catalog : Catalog} {key : Compiled.Key} {translations : List String}
    (hstored : (Compiled.collect options (catalog.prepared removeIdentical)).lookup key
      = some translations) :
    ∃ group ∈ groupsOf catalog.entries,
      (key, group.fitted catalog.formCount)
          ∈ Compiled.origins options (catalog.prepared removeIdentical)
        ∧ translations = options.translationsOf (group.fitted catalog.formCount) := by
  have hmem := (Compiled.Records.lookup_eq_some (Compiled.nodup_collect _ _)).mp hstored
  rw [Compiled.collect_eq_map_origins] at hmem
  obtain ⟨⟨_, entry⟩, horigin, heq⟩ := List.mem_map.mp hmem
  cases heq
  obtain ⟨group, hgroup, rfl⟩ := Catalog.exists_group_of_mem_prepared
    (List.mem_filter.mp (Compiled.mem_storedEntries_of_mem_origins horigin)).1
  exact ⟨group, hgroup, horigin, rfl⟩

/-- Every record is made from a group of duplicates.  It has the plural form of
a count, and looking it up with the count finds a text, if the first entry of
the group is plural or the form is the first one.  Otherwise the record has no
such form, and the look-up finds a text only if another record has one for
it. -/
theorem Catalog.isSome_lookup_release_iff {options : Compiled.Options}
    {removeIdentical verbose : Bool} {path : Path} {catalog : Catalog} {bytes : Bytes}
    (h : (catalog.release options removeIdentical verbose path).bytes = .ok bytes) :
    ∃ file, Compiled.File.parse bytes = .ok file
      ∧ ∀ key translations,
          (Compiled.collect options (catalog.prepared removeIdentical)).lookup key
              = some translations →
            ∃ group ∈ groupsOf catalog.entries,
              (key, group.fitted catalog.formCount)
                  ∈ Compiled.origins options (catalog.prepared removeIdentical)
                ∧ translations = options.translationsOf (group.fitted catalog.formCount)
                ∧ ∀ count,
                  (Plural.formIndex file.rules count < translations.length
                      ↔ group.first.plural = true ∨ Plural.formIndex file.rules count = 0)
                    ∧ ((file.lookup key (some count)).isSome = true
                      ↔ group.first.plural = true ∨ Plural.formIndex file.rules count = 0
                        ∨ Compiled.IsAnswered options (catalog.prepared removeIdentical) key
                            (Plural.formIndex file.rules count)) := by
  obtain ⟨file, hparse, hfile⟩ := Catalog.parse_release h
  refine ⟨file, hparse, ?_⟩
  intro key translations hstored
  obtain ⟨group, hgroup, horigin, rfl⟩ := Catalog.exists_group_of_stored hstored
  refine ⟨group, hgroup, horigin, rfl, fun count => ?_⟩
  have hselected : Plural.formIndex file.rules count < catalog.formCount := by
    have hlanguage : (catalog.prepared removeIdentical).language = catalog.language := by
      cases removeIdentical <;> rfl
    rw [hfile.rules, hlanguage]
    exact Plural.formIndex_ruleBlock_lt _ count
  have hform : Plural.formIndex file.rules count
        < (options.translationsOf (group.fitted catalog.formCount)).length
      ↔ group.first.plural = true ∨ Plural.formIndex file.rules count = 0 := by
    rw [group.length_fitted]
    cases group.first.plural with
    | true => simp [hselected]
    | false => simp
  refine ⟨hform, ?_⟩
  rw [hfile.isSome_lookup_of_stored_iff hstored]
  constructor
  · exact fun hanswered => .inr (.inr hanswered)
  · rintro (hplural | hfirst | hanswered)
    · exact Compiled.isAnswered_of_stored hstored (hform.mpr (.inl hplural))
    · exact Compiled.isAnswered_of_stored hstored (hform.mpr (.inr hfirst))
    · exact hanswered

/-- Of each of two texts there is an entry without translations, and then a
plural one.  One of the first entries is plural itself. -/
def lending : Catalog where
  entries := [
    { context := "C", source := "%n files", state := .finished, plural := true },
    { context := "C", source := "%n", state := .finished },
    { context := "C", source := "%n files", translations := ["a"], state := .finished,
      plural := true },
    { context := "C", source := "%n", translations := ["x", "y"], state := .finished,
      plural := true }]
  language := "de"

theorem exists_release_lending (path : Path) :
    ∃ bytes, (lending.release { saveMode := .stripped } true false path).bytes = .ok bytes :=
  Catalog.exists_release (Compiled.exists_compile _ _ (by decide +kernel) (by decide +kernel)
    (by decide +kernel))

/-- The shorter text has one record for its hash, and that has one form. -/
theorem not_isAnswered_lending {form : Nat} (h : form ≠ 0) :
    ¬ Compiled.IsAnswered { saveMode := .stripped } (lending.prepared true) ⟨"C", "%n", ""⟩
      form := by
  intro hanswered
  obtain ⟨record, hrecord, hhash, hform⟩ := hanswered.exists_record
  have hsingle : ∀ record ∈ Compiled.collect { saveMode := .stripped } (lending.prepared true),
      record.1.hash = (⟨"C", "%n", ""⟩ : Compiled.Key).hash → record.2.length = 1 := by
    decide +kernel
  rw [hsingle record hrecord (hhash.elim id id)] at hform
  omega

theorem plural_lending :
    ∀ group ∈ groupsOf lending.entries,
      ∀ origin ∈ Compiled.origins { saveMode := .stripped } (lending.prepared true),
        origin.2 = group.fitted lending.formCount →
          (group.first.plural = true ↔ origin.1.source = "%n files") := by
  decide +kernel

/-- Both texts have the translations of a plural entry.  The one whose first
entry is plural is always found, and the other one in the first form only. -/
theorem Catalog.isSome_lookup_release_iff_lending :
    ∃ bytes file,
      (lending.release { saveMode := .stripped } true false default).bytes = .ok bytes
        ∧ Compiled.File.parse bytes = .ok file
        ∧ (∀ group ∈ groupsOf lending.entries, group.donor.plural = true)
        ∧ (∀ count, (file.lookup ⟨"C", "%n files", ""⟩ (some count)).isSome = true)
        ∧ ∀ count, (file.lookup ⟨"C", "%n", ""⟩ (some count)).isSome = true
            ↔ Plural.formIndex file.rules count = 0 := by
  obtain ⟨bytes, h⟩ := exists_release_lending default
  obtain ⟨file, hparse, hlookup⟩ := Catalog.isSome_lookup_release_iff h
  refine ⟨bytes, file, h, hparse, by decide, ?_, ?_⟩
  · obtain ⟨group, hgroup, horigin, -, hcounts⟩ :=
      hlookup ⟨"C", "%n files", ""⟩ ["a", ""] (by decide +kernel)
    have hplural := (plural_lending group hgroup _ horigin rfl).mpr rfl
    exact fun count => (hcounts count).2.mpr (.inl hplural)
  · obtain ⟨group, hgroup, horigin, -, hcounts⟩ :=
      hlookup ⟨"C", "%n", ""⟩ ["x"] (by decide +kernel)
    have hother : ("%n" : String) ≠ "%n files" := by decide
    have hsingle : group.first.plural ≠ true := fun hplural =>
      hother ((plural_lending group hgroup _ horigin rfl).mp hplural)
    intro count
    rw [(hcounts count).2]
    constructor
    · rintro (hplural | hzero | hanswered)
      · exact absurd hplural hsingle
      · exact hzero
      · by_contra hne
        exact not_isAnswered_lending hne hanswered
    · exact fun hzero => .inr (.inl hzero)

/-- The record that a plural entry gave its translations to has one of them,
and a look-up of five misses. -/
theorem Catalog.lookup_release_lending_eq_none :
    ∃ bytes file group,
      (lending.release { saveMode := .stripped } true false default).bytes = .ok bytes
        ∧ Compiled.File.parse bytes = .ok file
        ∧ group ∈ groupsOf lending.entries ∧ group.donor.plural = true
        ∧ (⟨"C", "%n", ""⟩, group.fitted lending.formCount)
          ∈ Compiled.origins { saveMode := .stripped } (lending.prepared true)
        ∧ (Compiled.collect { saveMode := .stripped } (lending.prepared true)).lookup
          ⟨"C", "%n", ""⟩ = some ["x"]
        ∧ ¬ Plural.formIndex file.rules 5 < ["x"].length
        ∧ file.lookup ⟨"C", "%n", ""⟩ (some 5) = none := by
  obtain ⟨bytes, h⟩ := exists_release_lending default
  obtain ⟨file, hparse, hfile⟩ := Catalog.parse_release h
  have hstored : (Compiled.collect { saveMode := .stripped } (lending.prepared true)).lookup
      ⟨"C", "%n", ""⟩ = some ["x"] := by
    decide +kernel
  obtain ⟨group, hgroup, hplural, horigin⟩ : ∃ group ∈ groupsOf lending.entries,
      group.donor.plural = true ∧ (⟨"C", "%n", ""⟩, group.fitted lending.formCount)
        ∈ Compiled.origins { saveMode := .stripped } (lending.prepared true) := by
    decide +kernel
  have hform : Plural.formIndex file.rules 5 = 1 := by
    rw [hfile.rules]
    decide +kernel
  refine ⟨bytes, file, group, h, hparse, hgroup, hplural, horigin, hstored, ?_, ?_⟩
  · rw [hform]
    decide
  · rw [← Option.not_isSome_iff_eq_none, hfile.isSome_lookup_of_stored_iff hstored]
    show ¬ Compiled.IsAnswered _ _ _ (Plural.formIndex file.rules 5)
    rw [hform]
    exact not_isAnswered_lending (by decide)

end MessageCatalog
