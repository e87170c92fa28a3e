/-
# `MessageCatalog.Proofs.IdenticalTranslations` — translations that are the source text

A release that drops translations which are the source text does so before
it fits the translations to the plural forms.  Where a single form is needed,
fitting leaves the first translation, which may be the source text:

    [source]           dropped
    [source, …, t]     fitted to [source]
    []                 fitted to [""]

So a record has its source text as its only translation exactly if it comes
from an entry that fitting made so (`BecomesIdentical`).  Then translations
were cut off, which is remarked on, or there is no source text.  In `surplus`
both ways to cut off translations occur.
-/
import MessageCatalog.Proofs.ReleasedKeys
import MessageCatalog.Proofs.SqueezedLookup

namespace MessageCatalog

/-! ## Fitting to a single form -/

theorem resized_one (translations : List String) :
    resized 1 translations = [translations.head?.getD ""] := by
  cases translations with
  | nil => rfl
  | cons first rest => simp [resized]

theorem resized_eq_singleton_iff {length : Nat} {translations : List String} {text : String} :
    resized length translations = [text] ↔ length = 1 ∧ translations.head?.getD "" = text := by
  constructor
  · intro h
    have hlength := length_resized length translations
    rw [h, List.length_singleton] at hlength
    subst hlength
    rw [resized_one] at h
    exact ⟨rfl, List.singleton_inj.mp h⟩
  · rintro ⟨rfl, rfl⟩
    exact resized_one translations

namespace Entry

/-- The entry needs a single translation and has none or several, of which
the first one is its source text. -/
structure BecomesIdentical (forms : Nat) (entry : Entry) : Prop where
  single : entry.neededForms forms = 1
  misfit : entry.translations.length ≠ 1
  first : entry.translation = entry.source

variable {forms : Nat} {entry : Entry}

theorem isIdentical_fitted :
    (entry.fitted forms).isIdentical = true
      ↔ entry.neededForms forms = 1 ∧ entry.translation = entry.source := by
  rw [isIdentical, beq_iff_eq]
  exact resized_eq_singleton_iff

/-- A single translation that is the source text is all it takes. -/
theorem isIdentical_of_length (h : entry.translations.length = 1)
    (hfirst : entry.translation = entry.source) : entry.isIdentical = true := by
  obtain ⟨only, honly⟩ := List.length_eq_one_iff.mp h
  rw [translation, honly] at hfirst
  rw [isIdentical, honly, beq_iff_eq]
  exact congrArg (fun text => [text]) hfirst

theorem isIdentical_fitted_iff (h : entry.isIdentical = false) :
    (entry.fitted forms).isIdentical = true ↔ entry.BecomesIdentical forms := by
  rw [isIdentical_fitted]
  constructor
  · rintro ⟨hsingle, hfirst⟩
    refine ⟨hsingle, fun hlength => ?_, hfirst⟩
    rw [isIdentical_of_length hlength hfirst] at h
    cases h
  · intro hbecomes
    exact ⟨hbecomes.single, hbecomes.first⟩

theorem BecomesIdentical.isIdentical_eq_false (h : entry.BecomesIdentical forms) :
    entry.isIdentical = false := by
  refine Bool.eq_false_iff.mpr fun hidentical => h.misfit ?_
  rw [beq_iff_eq.mp hidentical]
  rfl

theorem BecomesIdentical.isCut_or (h : entry.BecomesIdentical forms) :
    entry.isCut forms = true ∨ entry.source = "" := by
  cases htranslations : entry.translations with
  | nil =>
      refine .inr ?_
      rw [← h.first, translation, htranslations]
      rfl
  | cons first rest =>
      refine .inl ?_
      have hlength := h.misfit
      rw [htranslations, List.length_cons] at hlength
      rw [isCut, decide_eq_true_iff, h.single, htranslations, List.length_cons]
      omega

end Entry

/-! ## Prepared catalogs -/

namespace Catalog

variable {catalog : Catalog}

/-- What is released was not identical before it was fitted. -/
theorem mem_entries_prepared {stored : Entry} :
    stored ∈ (catalog.prepared true).entries
      ↔ ∃ entry ∈ catalog.foldDuplicates.1.entries, entry.isIdentical = false
          ∧ entry.fitted catalog.formCount = stored := by
  have hentries : (catalog.prepared true).entries
      = (catalog.foldDuplicates.1.entries.filter fun entry => !entry.isIdentical).map
          (Entry.fitted catalog.formCount) := rfl
  simp only [hentries, List.mem_map, List.mem_filter, Bool.not_eq_true', and_assoc]

/-- Cutting off a translation is remarked on. -/
theorem formsRemoved_mem_remarks {options : Compiled.Options} {verbose : Bool} {path : Path}
    {entry : Entry} (hentry : entry ∈ catalog.foldDuplicates.1.entries)
    (hidentical : entry.isIdentical = false) (hcut : entry.isCut catalog.formCount = true) :
    Remark.formsRemoved ∈ (catalog.release options true verbose path).remarks := by
  have hnarrowed : entry ∈ (catalog.narrowed true).entries :=
    List.mem_filter.mpr ⟨hentry, by rw [hidentical]; rfl⟩
  have hany : (catalog.narrowed true).entries.any
      (Entry.isCut (catalog.narrowed true).formCount) = true :=
    List.any_eq_true.mpr ⟨entry, hnarrowed, hcut⟩
  have hfitting : Remark.formsRemoved ∈ (catalog.narrowed true).fittingRemarks := by
    refine List.mem_append_left _ ?_
    rw [if_pos hany]
    exact List.mem_cons_self
  exact List.mem_append_left _ (List.mem_append_right _ hfitting)

end Catalog

/-! ## Records -/

namespace Compiled

variable {options : Options} {catalog : Catalog}

theorem translationsOf_eq_self (hid : options.idBased = false) (hmark : options.mark = "")
    (entry : Entry) : options.translationsOf entry = entry.translations := by
  refine translationsOf_of_not_fillsIn ?_ entry
  rw [Options.fillsIn, hid, hmark]
  rfl

theorem source_of_isKeyOf {entry : Entry} {key : Key} (h : IsKeyOf options catalog entry key) :
    key.source = entry.source := by
  rcases h with rfl | ⟨rfl, -⟩
  · rfl
  · rfl

/-- A record has its source text as its only translation if the entry has
that it comes from. -/
theorem translationsOf_eq_source_iff (hid : options.idBased = false) (hmark : options.mark = "")
    {key : Key} {entry : Entry} (h : (key, entry) ∈ origins options catalog) :
    options.translationsOf entry = [key.source] ↔ entry.isIdentical = true := by
  rw [translationsOf_eq_self hid hmark, source_of_isKeyOf (isKeyOf_of_mem_origins hid h)]
  exact beq_iff_eq.symm

theorem mem_sortedRecords_iff_origin {record : Key × List String} :
    record ∈ sortedRecords options catalog
      ↔ ∃ entry, (record.1, entry) ∈ origins options catalog
          ∧ options.translationsOf entry = record.2 := by
  rw [mem_sortedRecords, collect_eq_map_origins, List.mem_map]
  constructor
  · rintro ⟨⟨key, entry⟩, horigin, rfl⟩
    exact ⟨entry, horigin, rfl⟩
  · rintro ⟨entry, horigin, htranslations⟩
    exact ⟨_, horigin, Prod.ext rfl htranslations⟩

end Compiled

section

variable {options : Compiled.Options} {catalog : Catalog}

/-- The records with their source text as their only translation are those
that fitting made so. -/
theorem Catalog.eq_source_iff_becomesIdentical (hid : options.idBased = false)
    (hmark : options.mark = "") {record : Compiled.Key × List String}
    (hrecord : record ∈ Compiled.sortedRecords options (catalog.prepared true)) :
    record.2 = [record.1.source]
      ↔ ∃ entry ∈ catalog.foldDuplicates.1.entries,
          (record.1, entry.fitted catalog.formCount)
              ∈ Compiled.origins options (catalog.prepared true)
            ∧ entry.BecomesIdentical catalog.formCount := by
  constructor
  · intro hsource
    obtain ⟨stored, horigin, htranslations⟩ :=
      Compiled.mem_sortedRecords_iff_origin.mp hrecord
    have hmem := Compiled.mem_entries_of_mem_storedEntries
      (Compiled.mem_storedEntries_of_mem_origins horigin)
    obtain ⟨entry, hentry, hkept, rfl⟩ := Catalog.mem_entries_prepared.mp hmem
    rw [hsource, Compiled.translationsOf_eq_source_iff hid hmark horigin,
      Entry.isIdentical_fitted_iff hkept] at htranslations
    exact ⟨entry, hentry, horigin, htranslations⟩
  · rintro ⟨entry, -, horigin, hbecomes⟩
    have hlookup := (Compiled.Records.lookup_eq_some (Compiled.nodup_collect _ _)).mpr
      (Compiled.mem_sortedRecords.mp hrecord)
    rw [Compiled.lookup_of_mem_origins horigin] at hlookup
    rw [← Option.some.inj hlookup, Compiled.translationsOf_eq_source_iff hid hmark horigin,
      Entry.isIdentical_fitted]
    exact ⟨hbecomes.single, hbecomes.first⟩

end

/-- A release that drops translations which are the source text has a record
with its source text as its only translation exactly where fitting made an
entry so that had none or several translations.  A record with a source text
is like that only if the release remarks that translations were cut off. -/
theorem Catalog.exists_release_eq_source_iff {options : Compiled.Options} {verbose : Bool}
    {path : Path} {catalog : Catalog} {bytes : Bytes} (hid : options.idBased = false)
    (hmark : options.mark = "")
    (h : (catalog.release options true verbose path).bytes = .ok bytes) :
    ∃ file, Compiled.File.parse bytes = .ok file
      ∧ Compiled.IsCompiled options (catalog.prepared true) file
      ∧ ∀ record ∈ Compiled.sortedRecords options (catalog.prepared true),
          (record.2 = [record.1.source]
            ↔ ∃ entry ∈ catalog.foldDuplicates.1.entries,
                (record.1, entry.fitted catalog.formCount)
                    ∈ Compiled.origins options (catalog.prepared true)
                  ∧ entry.BecomesIdentical catalog.formCount)
            ∧ (record.2 = [record.1.source] → record.1.source = ""
                ∨ Remark.formsRemoved ∈ (catalog.release options true verbose path).remarks) := by
  obtain ⟨file, hparse, hfile⟩ := Catalog.parse_release h
  refine ⟨file, hparse, hfile, ?_⟩
  intro record hrecord
  have hiff := Catalog.eq_source_iff_becomesIdentical hid hmark hrecord
  refine ⟨hiff, fun hsource => ?_⟩
  obtain ⟨entry, hentry, horigin, hbecomes⟩ := hiff.mp hsource
  rcases hbecomes.isCut_or with hcut | hempty
  · refine .inr (Catalog.formsRemoved_mem_remarks hentry ?_ hcut)
    exact hbecomes.isIdentical_eq_false
  · refine .inl ?_
    rw [Compiled.source_of_isKeyOf (Compiled.isKeyOf_of_mem_origins hid horigin)]
    exact hempty

/-- Two entries with a translation too many, which are left with their source
text, and one that is identical from the start. -/
def surplus : Catalog where
  entries := [
    { context := "C", source := "%n files", translations := ["%n files", "%n file"]
      state := .finished, plural := true },
    { context := "C", source := "Open", translations := ["Open", "Auf"], state := .finished },
    { context := "C", source := "Close", translations := ["Close"], state := .finished }]
  language := "ja"

theorem exists_release_surplus (path : Path) :
    ∃ bytes, (surplus.release {} true false path).bytes = .ok bytes := by
  refine Catalog.exists_release (Compiled.exists_compile _ _ ?_ ?_ ?_)
  · decide +kernel
  · decide +kernel
  · decide +kernel

theorem sortedRecords_surplus : Compiled.sortedRecords {} (surplus.prepared true)
    = [(⟨"C", "Open", ""⟩, ["Open"]), (⟨"C", "%n files", ""⟩, ["%n files"])] :=
  Compiled.sortedRecords_of_perm (by decide +kernel) (by decide +kernel)

theorem Catalog.exists_release_eq_source_iff_surplus :
    ∃ bytes file, (surplus.release {} true false default).bytes = .ok bytes
      ∧ Compiled.File.parse bytes = .ok file
      ∧ (∃ entry ∈ surplus.foldDuplicates.1.entries, entry.BecomesIdentical surplus.formCount)
      ∧ Remark.formsRemoved ∈ (surplus.release {} true false default).remarks := by
  obtain ⟨bytes, h⟩ := exists_release_surplus default
  obtain ⟨file, hparse, -, hall⟩ := Catalog.exists_release_eq_source_iff rfl rfl h
  rw [sortedRecords_surplus] at hall
  obtain ⟨hiff, hremark⟩ := hall (⟨"C", "Open", ""⟩, ["Open"]) List.mem_cons_self
  refine ⟨bytes, file, h, hparse, ?_, ?_⟩
  · obtain ⟨entry, hentry, -, hbecomes⟩ := hiff.mp rfl
    exact ⟨entry, hentry, hbecomes⟩
  · exact (hremark rfl).resolve_left (by decide)

/-- Identical translations are restored from a release that was to be without
them. -/
theorem Catalog.isIdentical_release_surplus :
    ∃ bytes restored, (surplus.release {} true false default).bytes = .ok bytes
      ∧ Compiled.decompile bytes = .ok restored
      ∧ restored.entries.length = 2
      ∧ ∀ entry ∈ restored.entries, entry.source ≠ "" ∧ entry.translations = [entry.source] := by
  obtain ⟨bytes, h⟩ := exists_release_surplus default
  obtain ⟨file, hparse, hfile⟩ := Catalog.parse_release h
  refine ⟨bytes, _, h, Compiled.bind_eq_ok.mpr ⟨file, hparse, hfile.toCatalog_everything rfl⟩, ?_⟩
  rw [sortedRecords_surplus]
  decide +kernel

end MessageCatalog
