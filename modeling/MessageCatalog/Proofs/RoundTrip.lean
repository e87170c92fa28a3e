/-
# `MessageCatalog.Proofs.RoundTrip` — restoring a catalog that was compiled in full

A record that was written in full has all parts of its key, so nothing is
taken from the record in front of it when it is restored.  Hence restoring
undoes compiling up to what compiling forgets: of an entry, the three texts
of its key and its translations are left, and of the catalog its language
and its dependencies.
-/
import Mathlib.Data.List.Infix
import MessageCatalog.Compiled.Decode
import MessageCatalog.Proofs.Size

namespace MessageCatalog.Compiled

/-! ## Records -/

/-- Nothing is completed in a record with all parts of its key. -/
theorem completedFrom_writtenRecord (key : Key) (translations : List String) (earlier : Record) :
    (writtenRecord key translations .comment).completedFrom earlier
      = writtenRecord key translations .comment := rfl

/-- The records of the slots, where all were written in full. -/
theorem readSlots_full {bytes : Bytes} {records : Records} {slots : List (UInt32 × UInt32)}
    (h : List.Forall₂ (LeadsTo bytes) (records.map fun record => (record, Level.comment)) slots) :
    ∀ previous, readSlots bytes previous slots
      = .ok (records.map fun record => writtenRecord record.1 record.2 .comment) := by
  rw [List.forall₂_map_left_iff] at h
  induction h with
  | nil => exact fun _ => rfl
  | @cons record slot records slots hrecord _ ih =>
      intro previous
      rw [readSlots, bind_eq_ok]
      refine ⟨_, hrecord.2, bind_eq_ok.mpr ⟨_, ih _, pure_eq_ok.mpr ?_⟩⟩
      refine congrArg (List.cons · _) ?_
      split
      · split
        · exact completedFrom_writtenRecord _ _ _
        · rfl
      · rfl

/-! ## Entries -/

theorem occursIn_iff {part text : List Char} : occursIn part text ↔ part <:+: text := by
  induction text with
  | nil => rw [occursIn, List.isEmpty_iff, List.infix_nil]
  | cons c text ih =>
      rw [occursIn, Bool.or_eq_true, ih, List.isPrefixOf_iff_prefix, List.infix_cons_iff]

/-- The entry that is left of a record in a catalog of some language. -/
def restoredEntry (language : String) (record : Key × List String) : Entry :=
  { context := record.1.context
    source := record.1.source
    comment := record.1.comment
    translations := record.2
    state := .finished
    plural := 1 < record.2.length
      ∨ Plural.formCount? language = some 1 ∧ countMark.toList <:+: record.1.source.toList }

theorem toEntry?_writtenRecord (language : String) (record : Key × List String) :
    Record.toEntry? (Plural.formCount? language == some 1)
        (writtenRecord record.1 record.2 .comment)
      = some (restoredEntry language record) := by
  have hvalid : (writtenRecord record.1 record.2 .comment).isValid = true := by
    simp [Record.isValid, writtenRecord]
  have hlength : (record.2.map fun t => (⟨t, true⟩ : Utf16.Reading)).length = record.2.length :=
    List.length_map _
  have hplural : ((1 < record.2.length : Bool)
      || (Plural.formCount? language == some 1)
        && occursIn countMark.toList record.1.source.toList)
      = decide (1 < record.2.length
        ∨ Plural.formCount? language = some 1 ∧ countMark.toList <:+: record.1.source.toList) := by
    rw [Bool.eq_iff_iff]
    simp only [Bool.or_eq_true, Bool.and_eq_true, decide_eq_true_eq, beq_iff_eq, occursIn_iff]
  simp only [Record.toEntry?, Option.bind_eq_bind, Option.bind_eq_some_iff]
  refine ⟨_, Utf8.decode_encode _, _, Utf8.decode_encode _, _, Utf8.decode_encode _, ?_⟩
  rw [if_pos hvalid, restoredEntry, ← hplural]
  simp only [writtenRecord, Utf16.map_text_readings, hlength]
  rfl

theorem mapM_toEntry? (language : String) (records : Records) :
    (records.map fun record => writtenRecord record.1 record.2 .comment).mapM
        (Record.toEntry? (Plural.formCount? language == some 1))
      = some (records.map (restoredEntry language)) := by
  rw [List.mapM_map]
  have heach : (Record.toEntry? (Plural.formCount? language == some 1)) ∘
      (fun record : Key × List String => writtenRecord record.1 record.2 .comment)
        = fun record => pure (restoredEntry language record) :=
    funext (toEntry?_writtenRecord language)
  rw [heach, List.mapM_pure]
  rfl

/-! ## Catalogs -/

/-- What is left of a catalog with some records. -/
def restoredCatalog (catalog : Catalog) (records : Records) : Catalog where
  entries := records.map (restoredEntry catalog.language)
  language := catalog.language
  dependencies := catalog.dependencies

/-- The file of a catalog that was compiled in full has an entry for every
record. -/
theorem IsCompiled.toCatalog_everything {options : Options} {catalog : Catalog} {file : File}
    (h : IsCompiled options catalog file) (hmode : options.saveMode = .everything) :
    file.toCatalog = .ok (restoredCatalog catalog (sortedRecords options catalog)) := by
  have hslots := h.slots
  rw [hmode, levelled_everything] at hslots
  refine bind_eq_ok.mpr ⟨_, readSlots_full hslots none, ?_⟩
  rw [h.language, h.dependencies, mapM_toEntry?]
  rfl

/-- A catalog that was compiled in full is restored with an entry for every
record, in the order of their keys. -/
theorem decompile_compile {options : Options} {catalog : Catalog} {compilation : Compilation}
    (hmode : options.saveMode = .everything)
    (h : (compile options catalog).2 = .ok compilation) :
    ∃ records : Records,
      records.Pairwise (fun a b => Key.order a.1 b.1 = .lt)
        ∧ (∀ key translations, (key, translations) ∈ records ↔
            (collect options catalog).lookup key = some translations)
        ∧ decompile compilation.bytes = .ok {
            entries := records.map (restoredEntry catalog.language)
            language := catalog.language
            dependencies := catalog.dependencies } := by
  obtain ⟨file, hparse, hfile⟩ := parse_compile h
  have hslots := hfile.slots
  rw [hmode, levelled_everything] at hslots
  refine ⟨sortedRecords options catalog, pairwise_sortedRecords options catalog, ?_, ?_⟩
  · intro key translations
    rw [mem_sortedRecords, Records.lookup_eq_some (nodup_collect options catalog)]
  · rw [decompile, bind_eq_ok]
    refine ⟨file, hparse, bind_eq_ok.mpr ⟨_, readSlots_full hslots none, ?_⟩⟩
    rw [hfile.language, hfile.dependencies, mapM_toEntry?]
    rfl

theorem decompile_compile_colliding :
    ∃ compilation, (compile { saveMode := .everything } colliding).2 = .ok compilation
      ∧ ∃ records : Records,
        (⟨"C", "ab", "c"⟩, ["x", "y"]) ∈ records ∧ (⟨"C", "a", "bc"⟩, []) ∈ records
          ∧ decompile compilation.bytes = .ok {
              entries := records.map (restoredEntry "ja")
              language := "ja"
              dependencies := ["base"] } := by
  obtain ⟨compilation, h⟩ := exists_compile_colliding .everything
  obtain ⟨records, -, hmem, hdecompile⟩ := decompile_compile rfl h
  refine ⟨compilation, h, records, (hmem _ _).mpr ?_, (hmem _ _).mpr ?_, hdecompile⟩
  · decide +kernel
  · decide +kernel

end MessageCatalog.Compiled
