/-
# `MessageCatalog.Proofs.Size` — when compiling succeeds

Compiling fails only where a length or an offset does not fit into four
bytes.  All of them are lengths of texts or sums of such, so there is a
bound in terms of the catalog alone: if the records, the names of other
catalogs and the name of the language are each smaller than 4 GiB then the
catalog compiles.

What is written one after the other is measured in one way (`mapM_of_size`):
fields in a record, records in their block and names in theirs.
-/
import Mathlib.Algebra.GroupWithZero.Nat
import MessageCatalog.Proofs.FileReading
import MessageCatalog.Proofs.PluralForms
import MessageCatalog.Proofs.RecordSet

namespace MessageCatalog.Compiled

/-! ## Sequences -/

theorem exists_mapM {ε α β : Type} {f : α → Except ε β} {items : List α}
    (h : ∀ item ∈ items, ∃ result, f item = .ok result) :
    ∃ results, items.mapM f = .ok results := by
  induction items with
  | nil => exact ⟨[], rfl⟩
  | cons item items ih =>
      obtain ⟨result, hresult⟩ := h item List.mem_cons_self
      obtain ⟨results, hresults⟩ := ih fun other hother => h other (List.mem_cons_of_mem _ hother)
      exact ⟨result :: results, mapM_eq_ok.mpr (.cons hresult (mapM_eq_ok.mp hresults))⟩

/-- A writer succeeds on items that are small enough together, and takes at
most their size. -/
theorem mapM_of_size {α : Type} {f : α → Except Error Bytes} {size : α → Nat}
    (hf : ∀ item, size item < 4294967296 →
      ∃ bytes, f item = .ok bytes ∧ bytes.length ≤ size item) {items : List α}
    (h : (items.map size).sum < 4294967296) :
    ∃ written, items.mapM f = .ok written ∧ written.flatten.length ≤ (items.map size).sum := by
  induction items with
  | nil => exact ⟨[], rfl, Nat.le_refl _⟩
  | cons item items ih =>
      rw [List.map_cons, List.sum_cons] at h ⊢
      obtain ⟨bytes, hbytes, hsize⟩ := hf item (by omega)
      obtain ⟨written, hwritten, hsizes⟩ := ih (by omega)
      refine ⟨bytes :: written, mapM_eq_ok.mpr (.cons hbytes (mapM_eq_ok.mp hwritten)), ?_⟩
      rw [List.flatten_cons, List.length_append]
      omega

/-! ## Records -/

theorem exists_counted {payload : Bytes} (h : 4 + payload.length < 4294967296) :
    ∃ bytes, counted payload = .ok bytes ∧ bytes.length ≤ 4 + payload.length := by
  have hbytes := counted_eq_ok.mpr ⟨(by omega : payload.length < 4294967296), rfl⟩
  exact ⟨_, hbytes, Nat.le_of_eq (length_of_counted hbytes)⟩

theorem exists_tagged (tag : UInt8) {payload : Bytes} (h : 5 + payload.length < 4294967296) :
    ∃ bytes, tagged tag payload = .ok bytes ∧ bytes.length ≤ 5 + payload.length := by
  obtain ⟨body, hbody, -⟩ := exists_counted (by omega : 4 + payload.length < 4294967296)
  have hbytes : tagged tag payload = .ok (tag :: body) := tagged_eq_ok.mpr ⟨body, hbody, rfl⟩
  exact ⟨_, hbytes, Nat.le_of_eq (length_of_tagged hbytes)⟩

/-- The size of some fields. -/
def fieldSizes (fields : List (FieldTag × Bytes)) : Nat := (fields.map fun f => 5 + f.2.length).sum

/-- The size of a record that is written in full. -/
def recordSize (record : Key × List String) : Nat :=
  fieldSizes (writtenFields record.1 record.2 .comment) + 1

/-- A record that is not written in full is smaller. -/
theorem fieldSizes_lt (key : Key) (translations : List String) {level : Level}
    (h : level ≠ .comment) :
    fieldSizes (writtenFields key translations level) + 1 < recordSize (key, translations) := by
  simp only [recordSize, fieldSizes, writtenFields, List.map_append, List.sum_append]
  cases level with
  | nothing | hash | context | source =>
      simp only [Key.writtenParts, List.map_cons, List.map_nil, List.sum_cons, List.sum_nil]
      omega
  | comment => exact absurd rfl h

theorem fieldSizes_le (key : Key) (translations : List String) (level : Level) :
    fieldSizes (writtenFields key translations level) + 1 ≤ recordSize (key, translations) := by
  by_cases h : level = .comment
  · rw [h]
    exact Nat.le_refl _
  · exact Nat.le_of_lt (fieldSizes_lt key translations h)

/-- A record takes at most as much as if it were written in full. -/
theorem exists_writeRecord {key : Key} {translations : List String} (level : Level)
    (h : recordSize (key, translations) < 4294967296) :
    ∃ bytes, writeRecord key translations level = .ok bytes
      ∧ bytes.length ≤ recordSize (key, translations) := by
  have hle := fieldSizes_le key translations level
  obtain ⟨written, hwritten, hsize⟩ := mapM_of_size
    (fun (f : FieldTag × Bytes) hf => exists_tagged f.1.byte hf)
    (show fieldSizes (writtenFields key translations level) < 4294967296 by omega)
  refine ⟨_, writeRecord_eq_ok.mpr ⟨written, mapM_eq_ok.mp hwritten, rfl⟩, ?_⟩
  rw [List.length_append, List.length_singleton]
  have hsize : written.flatten.length ≤ fieldSizes (writtenFields key translations level) := hsize
  omega

theorem exists_writeRecords (mode : SaveMode) {records : Records}
    (h : (records.map recordSize).sum < 4294967296) :
    ∃ written, writeRecords mode records = .ok written
      ∧ written.flatten.length ≤ (records.map recordSize).sum := by
  rw [← map_levelled recordSize mode] at h ⊢
  exact mapM_of_size (fun item hitem => exists_writeRecord item.2 hitem) h

theorem length_le_recordSizes (records : Records) :
    8 * records.length ≤ (records.map recordSize).sum := by
  induction records with
  | nil => exact Nat.le_refl _
  | cons record records ih =>
      have hrecord : 8 ≤ recordSize record := by
        simp only [recordSize, fieldSizes, writtenFields, Key.writtenParts, List.map_append,
          List.sum_append, List.map_cons, List.sum_cons]
        omega
      rw [List.length_cons, List.map_cons, List.sum_cons]
      omega

/-! ## Slots -/

theorem exists_writeSlots {items : List (Key × Bytes)} :
    ∀ {offset : Nat}, offset + (items.map fun item => item.2.length).sum < 4294967296 →
      ∃ slots, writeSlots offset items = .ok slots ∧ slots.flatten.length = 8 * items.length := by
  induction items with
  | nil => exact fun _ => ⟨[], rfl, rfl⟩
  | cons item items ih =>
      intro offset h
      obtain ⟨key, bytes⟩ := item
      rw [List.map_cons, List.sum_cons] at h
      have hrest :
          offset + bytes.length + (items.map fun item => item.2.length).sum < 4294967296 := by
        rw [Nat.add_assoc]
        exact h
      obtain ⟨tail, htail, hlength⟩ := ih hrest
      refine ⟨_, writeSlots_cons_eq_ok.mpr ⟨tail, by omega, htail, rfl⟩, ?_⟩
      rw [List.flatten_cons, List.length_append, hlength, List.length_append,
        Bytes.length_ofWord32, Bytes.length_ofWord32, List.length_cons]
      omega

/-- The slots of some records, which are written from the front. -/
theorem exists_writeSlots_records {mode : SaveMode} {records : Records} {written : List Bytes}
    (hwritten : writeRecords mode records = .ok written)
    (h : written.flatten.length < 4294967296) :
    ∃ slots, writeSlots 0 ((records.map Prod.fst).zip written) = .ok slots
      ∧ slots.flatten.length = 8 * records.length := by
  have hlength : records.length = written.length := by
    rw [← (writeRecords_eq_ok.mp hwritten).length_eq]
    conv_lhs => rw [← map_fst_levelled mode records, List.length_map]
  have hsizes : ((records.map Prod.fst).zip written).map (fun item => item.2.length)
      = written.map List.length := by
    have hsnd : ((records.map Prod.fst).zip written).map Prod.snd = written :=
      List.map_snd_zip (Nat.le_of_eq (by rw [List.length_map, hlength]))
    conv_rhs => rw [← hsnd, List.map_map]
    rfl
  rw [List.length_flatten, ← hsizes] at h
  obtain ⟨slots, hslots, hcount⟩ := exists_writeSlots (by rwa [Nat.zero_add])
  refine ⟨slots, hslots, ?_⟩
  rw [hcount, List.length_zip, List.length_map, hlength, Nat.min_self]

/-! ## Catalogs -/

/-- The size of the name of another catalog. -/
def nameSize (name : String) : Nat := 4 + (Utf16.encode name).length

theorem exists_writeDependencies {names : List String}
    (h : (names.map nameSize).sum < 4294967296) :
    ∃ bytes, writeDependencies names = .ok bytes ∧ bytes.length ≤ (names.map nameSize).sum := by
  obtain ⟨written, hwritten, hsize⟩ := mapM_of_size (fun name hname => exists_counted hname) h
  exact ⟨written.flatten, map_eq_ok.mpr ⟨written, hwritten, rfl⟩, hsize⟩

theorem length_contextBlock_le (mode : SaveMode) (records : Records) :
    (contextBlock mode records).1.length ≤ 2 + 2 * 65535 + ContextTable.maxPoolSize := by
  unfold contextBlock
  split
  · exact Nat.zero_le _
  · cases hbuild : ContextTable.build (distinct (records.map fun r => Utf8.encode r.1.context)) with
    | error remark => exact Nat.zero_le _
    | ok block => exact ContextTable.length_of_build hbuild

theorem length_ruleBlock_le (language : String) : (ruleBlock language).length ≤ 255 := by
  have htable : ∀ row ∈ Plural.table, row.bytes.length ≤ 255 := by decide +kernel
  unfold ruleBlock
  cases hrow : Plural.lookupCode language with
  | none => exact Nat.zero_le _
  | some row => exact htable row (Plural.mem_table_of_lookupCode hrow)

/-- Blocks can be assembled if the length of each can be written. -/
theorem exists_assemble {blocks : List Block}
    (h : ∀ block ∈ blocks, block.payload.length < 4294967296) :
    ∃ bytes, assemble blocks = .ok bytes := by
  have heach : ∀ block ∈ blocks.filter fun block => !block.payload.isEmpty,
      ∃ bytes, block.toBytes = .ok bytes := by
    intro block hblock
    have hlength := h block (List.mem_filter.mp hblock).1
    exact ⟨_, tagged_eq_ok.mpr ⟨_, counted_eq_ok.mpr ⟨hlength, rfl⟩, rfl⟩⟩
  obtain ⟨written, hwritten⟩ := exists_mapM heach
  exact ⟨_, assemble_eq_ok.mpr ⟨written, mapM_eq_ok.mp hwritten, rfl⟩⟩

/-- A catalog compiles if its records, the names of other catalogs and the
name of its language are small. -/
theorem exists_compile (options : Options) (catalog : Catalog)
    (hrecords : ((collect options catalog).map recordSize).sum < 4294967291)
    (hnames : (catalog.dependencies.map nameSize).sum < 4294967291)
    (hlanguage : (Utf8.encode catalog.language).length < 4294967291) :
    ∃ compilation, (compile options catalog).2 = .ok compilation := by
  have hsorted : ((sortedRecords options catalog).map recordSize).sum
      = ((collect options catalog).map recordSize).sum :=
    ((List.mergeSort_perm _ _).map recordSize).sum_nat
  rw [← hsorted] at hrecords
  obtain ⟨written, hwritten, hsize⟩ := exists_writeRecords options.saveMode
    (show ((sortedRecords options catalog).map recordSize).sum < 4294967296 by omega)
  obtain ⟨slots, hslots, hcount⟩ := exists_writeSlots_records hwritten (by omega)
  obtain ⟨names, hdependencies, hnamesSize⟩ := exists_writeDependencies
    (show (catalog.dependencies.map nameSize).sum < 4294967296 by omega)
  -- a slot is no larger than its record, so the records bound both blocks
  have hslotSizes := length_le_recordSizes (sortedRecords options catalog)
  have hcontexts := length_contextBlock_le options.saveMode (sortedRecords options catalog)
  have hrules := length_ruleBlock_le catalog.language
  have hblocks : ∀ block ∈ writtenBlocks catalog names slots.flatten written.flatten
      (contextBlock options.saveMode (sortedRecords options catalog)).1,
      block.payload.length < 4294967296 := by
    simp only [writtenBlocks, List.forall_mem_cons, ContextTable.maxPoolSize] at hcontexts ⊢
    refine ⟨?_, ?_, ?_, ?_, ?_, ?_, List.forall_mem_nil _⟩ <;> omega
  obtain ⟨bytes, hbytes⟩ := exists_assemble hblocks
  have hall := bind_eq_ok.mpr ⟨_, blocksOf_eq_ok.mpr
    ⟨written, hwritten, slots, hslots, names, hdependencies, rfl⟩, hbytes⟩
  refine ⟨⟨bytes, statistics options catalog⟩, ?_⟩
  simp only [compile, hall]

/-- A catalog two of whose keys have the same hash and no text in common but
the context. -/
def colliding : Catalog where
  entries := [
    { context := "C", source := "ab", comment := "c", translations := ["x", "y"]
      state := .finished, plural := true },
    { context := "C", source := "a", comment := "bc", state := .finished },
    { context := "D", source := "%n", translations := ["z"], state := .finished }]
  language := "ja"
  dependencies := ["base"]

theorem exists_compile_colliding (mode : SaveMode) :
    ∃ compilation, (compile { saveMode := mode } colliding).2 = .ok compilation := by
  refine exists_compile _ colliding ?_ (by decide +kernel) (by decide +kernel)
  cases mode with
  | everything => decide +kernel
  | stripped => decide +kernel

end MessageCatalog.Compiled
