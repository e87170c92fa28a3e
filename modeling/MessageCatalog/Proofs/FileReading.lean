/-
# `MessageCatalog.Proofs.FileReading` — a compiled catalog is read as a file

Compiling assembles six blocks and leaves out those without a payload;
reading takes the blocks into a file one by one, on top of a file that is
empty at first.  So a block that was left out has to mean what the empty
file already says.  That is the case for each of the six, and it follows

    compile options catalog = (_, .ok compilation)  →
      File.parse compilation.bytes = .ok file, with IsCompiled options catalog file

which is all that the later modules know of the two functions.
-/
import MessageCatalog.Compiled.File
import MessageCatalog.Proofs.ContextTable
import MessageCatalog.Proofs.RecordReading

namespace MessageCatalog.Compiled

/-! ## Dependencies -/

theorem writeDependencies_eq_ok {names : List String} {bytes : Bytes}
    (h : writeDependencies names = .ok bytes) :
    ∃ written, List.Forall₂ (fun name b => counted (Utf16.encode name) = .ok b) names written
      ∧ bytes = written.flatten := by
  obtain ⟨written, hwritten, rfl⟩ := map_eq_ok.mp h
  exact ⟨written, mapM_eq_ok.mp hwritten, rfl⟩

theorem readNames_cons {offset size : Nat} {bytes rest : Bytes} {name : Utf16.Reading}
    {names : List Utf16.Reading} (hname : readText16 offset bytes = .ok (name, size, rest))
    (hnames : readNames (offset + size) rest = .ok names) :
    readNames offset bytes = .ok (name :: names) := by
  have hsize := size_of_readText16 hname
  have hlength := length_of_readText16 hname
  have hne : ¬ bytes.isEmpty := by
    rw [List.isEmpty_iff]
    rintro rfl
    rw [List.length_nil] at hlength
    omega
  rw [readNames, if_neg hne]
  split
  · next h => rw [hname] at h; cases h
  · next h =>
    rw [hname] at h
    cases h
    rw [hnames]

theorem readNames_written {names : List String} {written : List Bytes}
    (h : List.Forall₂ (fun name b => counted (Utf16.encode name) = .ok b) names written) :
    ∀ offset, readNames offset written.flatten = .ok (names.map fun name => ⟨name, true⟩) := by
  induction h with
  | nil => intro offset; rw [List.flatten_nil, readNames]; rfl
  | cons hname _ ih =>
      intro offset
      rw [List.flatten_cons]
      exact readNames_cons (readText16_of_counted hname offset _) (ih _)

/-- The names take no bytes only if there are none. -/
theorem eq_nil_of_writeDependencies {names : List String} (h : writeDependencies names = .ok []) :
    names = [] := by
  obtain ⟨written, hwritten, hflatten⟩ := writeDependencies_eq_ok h
  cases hwritten with
  | nil => rfl
  | cons hname _ =>
      have hlength := length_of_counted hname
      rw [List.flatten_cons] at hflatten
      have hzero := congrArg List.length hflatten
      rw [List.length_nil, List.length_append] at hzero
      omega

/-! ## Blocks -/

theorem BlockTag.ofByte?_byte (tag : BlockTag) : BlockTag.ofByte? tag.byte = some tag := by
  cases tag <;> rfl

theorem BlockTag.byte_ne_zero (tag : BlockTag) : tag.byte ≠ 0 := by
  cases tag <;> decide

theorem assemble_eq_ok {blocks : List Block} {bytes : Bytes} :
    assemble blocks = .ok bytes ↔
      ∃ written, List.Forall₂ (fun block b => block.toBytes = .ok b)
          (blocks.filter fun block => !block.payload.isEmpty) written
        ∧ magic ++ written.flatten = bytes := by
  exact bind_eq_ok.trans (exists_congr fun _ => and_congr mapM_eq_ok pure_eq_ok)

/-- Takes a block into a file, unless the block was left out. -/
def Draft.absorbWritten (draft : Draft) (block : Block) : Except Error Draft :=
  if !block.payload.isEmpty then draft.absorb block else .ok draft

theorem ne_of_mem_filter {blocks : List Block} (htags : ∀ block ∈ blocks, block.tag ≠ 0) :
    ∀ block ∈ blocks.filter fun block => !block.payload.isEmpty,
      block.tag ≠ 0 ∧ block.payload ≠ [] := by
  intro block hblock
  obtain ⟨hmem, hpayload⟩ := List.mem_filter.mp hblock
  refine ⟨htags block hmem, ?_⟩
  intro hnil
  rw [hnil] at hpayload
  cases hpayload

/-- What was assembled is split into the same blocks again. -/
theorem parse_eq_ofBlocks {blocks : List Block} {bytes : Bytes} (h : assemble blocks = .ok bytes)
    (htags : ∀ block ∈ blocks, block.tag ≠ 0) :
    File.parse bytes = File.ofBlocks (blocks.filter fun block => !block.payload.isEmpty) none := by
  obtain ⟨written, hwritten, rfl⟩ := assemble_eq_ok.mp h
  rw [File.parse, if_pos (List.isPrefixOf_iff_prefix.mpr (List.prefix_append _ _)),
    List.drop_left, splitBlocks_flatten hwritten (ne_of_mem_filter htags)]

/-- What was assembled is read block by block. -/
theorem parse_assemble {blocks : List Block} {bytes : Bytes} (h : assemble blocks = .ok bytes)
    (htags : ∀ block ∈ blocks, block.tag ≠ 0) {file : File}
    (hfile : blocks.foldlM Draft.absorbWritten {} = .ok { file }) :
    File.parse bytes = .ok file := by
  have hfold : (blocks.filter fun block => !block.payload.isEmpty).foldlM Draft.absorb {}
      = .ok { file } := by
    rw [List.foldlM_filter]
    exact hfile
  rw [parse_eq_ofBlocks h htags]
  unfold File.ofBlocks
  rw [hfold]
  rfl

/-! ## The six blocks -/

/-- The table of contexts that a file of some records has. -/
def keptContexts (mode : SaveMode) (records : Records) : Option ContextTable :=
  if mode = .everything || records.isEmpty then none
  else
    let contexts := distinct (records.map fun r => Utf8.encode r.1.context)
    match ContextTable.build contexts with
    | .ok _ => some (ContextTable.tableOf contexts)
    | .error _ => none

theorem absorbWritten_nil (draft : Draft) (tag : UInt8) :
    draft.absorbWritten ⟨tag, []⟩ = .ok draft := rfl

theorem absorbWritten_of_ne (draft : Draft) (tag : BlockTag) {payload : Bytes}
    (h : payload ≠ []) :
    draft.absorbWritten ⟨tag.byte, payload⟩ = draft.absorb ⟨tag.byte, payload⟩ := by
  cases payload with
  | nil => exact absurd rfl h
  | cons => rfl

theorem absorbWritten_language (language : String) :
    Draft.absorbWritten {} ⟨BlockTag.language.byte, Utf8.encode language⟩
      = .ok { file := { language } } := by
  by_cases hempty : Utf8.encode language = []
  · have hlanguage : language = "" := Utf8.encode_injective hempty
    rw [hempty, hlanguage, absorbWritten_nil]
  · rw [absorbWritten_of_ne _ _ hempty, Draft.absorb, BlockTag.ofByte?_byte]
    simp only [Utf8.decode_encode]

theorem absorbWritten_dependencies {names : List String} {bytes : Bytes}
    (h : writeDependencies names = .ok bytes) {file : File} (hfile : file.dependencies = []) :
    Draft.absorbWritten { file } ⟨BlockTag.dependencies.byte, bytes⟩
      = .ok { file := { file with dependencies := names } } := by
  by_cases hempty : bytes = []
  · subst hempty
    rw [eq_nil_of_writeDependencies h, ← hfile, absorbWritten_nil]
  · obtain ⟨written, hwritten, rfl⟩ := writeDependencies_eq_ok h
    have hvalid : (names.map fun name => (⟨name, true⟩ : Utf16.Reading)).any
        (fun name => !name.valid) = false := by
      simp
    rw [absorbWritten_of_ne _ _ hempty, Draft.absorb, BlockTag.ofByte?_byte]
    simp only [readNames_written hwritten, bind, Except.bind, pure, Except.pure,
      Utf16.map_text_readings, hvalid, Bool.or_false]

theorem absorbWritten_hashes (bytes : Bytes) {file : File} (hfile : file.slots = []) :
    Draft.absorbWritten { file } ⟨BlockTag.hashes.byte, bytes⟩
      = .ok { file := { file with slots := Bytes.wordPairs32 bytes } } := by
  by_cases hempty : bytes = []
  · subst hempty
    rw [absorbWritten_nil, Bytes.wordPairs32, ← hfile]
    simp
  · rw [absorbWritten_of_ne _ _ hempty, Draft.absorb, BlockTag.ofByte?_byte]

theorem absorbWritten_messages (bytes : Bytes) {file : File} (hfile : file.records = []) :
    Draft.absorbWritten { file } ⟨BlockTag.messages.byte, bytes⟩
      = .ok { file := { file with records := bytes } } := by
  by_cases hempty : bytes = []
  · rw [hempty, absorbWritten_nil, ← hfile]
  · rw [absorbWritten_of_ne _ _ hempty, Draft.absorb, BlockTag.ofByte?_byte]

theorem absorbWritten_contexts (mode : SaveMode) (records : Records) {file : File}
    (hfile : file.contexts = none) :
    Draft.absorbWritten { file } ⟨BlockTag.contexts.byte, (contextBlock mode records).1⟩
      = .ok { file := { file with contexts := keptContexts mode records } } := by
  unfold contextBlock keptContexts
  split
  · rw [absorbWritten_nil, ← hfile]
  · cases hbuild : ContextTable.build (distinct (records.map fun r => Utf8.encode r.1.context)) with
    | error remark =>
      simp only [hbuild]
      rw [absorbWritten_nil, ← hfile]
    | ok block =>
      have hempty : block ≠ [] := by
        rw [(ContextTable.build_eq_ok hbuild).2.2.2]
        exact List.cons_ne_nil _ _
      simp only [hbuild]
      rw [absorbWritten_of_ne _ _ hempty, Draft.absorb, BlockTag.ofByte?_byte]
      simp only [ContextTable.parse_build hbuild]
      rfl

theorem absorbWritten_pluralRules (bytes : Bytes) {file : File} (hfile : file.rules = []) :
    Draft.absorbWritten { file } ⟨BlockTag.pluralRules.byte, bytes⟩
      = .ok { file := { file with rules := bytes } } := by
  by_cases hempty : bytes = []
  · rw [hempty, absorbWritten_nil, ← hfile]
  · rw [absorbWritten_of_ne _ _ hempty, Draft.absorb, BlockTag.ofByte?_byte]

/-! ## Files -/

/-- The blocks of a catalog with the bytes that depend on its records. -/
def writtenBlocks (catalog : Catalog) (dependencies slots records contexts : Bytes) : List Block :=
  [⟨BlockTag.language.byte, Utf8.encode catalog.language⟩,
    ⟨BlockTag.dependencies.byte, dependencies⟩,
    ⟨BlockTag.hashes.byte, slots⟩,
    ⟨BlockTag.messages.byte, records⟩,
    ⟨BlockTag.contexts.byte, contexts⟩,
    ⟨BlockTag.pluralRules.byte, ruleBlock catalog.language⟩]

theorem blocksOf_eq_ok {options : Options} {catalog : Catalog} {contexts : Bytes}
    {blocks : List Block} :
    blocksOf options catalog contexts = .ok blocks ↔
      ∃ written, writeRecords options.saveMode (sortedRecords options catalog) = .ok written
        ∧ ∃ slots, writeSlots 0 (((sortedRecords options catalog).map Prod.fst).zip written)
            = .ok slots
        ∧ ∃ dependencies, writeDependencies catalog.dependencies = .ok dependencies
        ∧ writtenBlocks catalog dependencies slots.flatten written.flatten contexts = blocks := by
  unfold blocksOf
  simp only [bind_eq_ok, pure_eq_ok, writtenBlocks]

theorem tag_ne_zero_of_mem_writtenBlocks {catalog : Catalog}
    {dependencies slots records contexts : Bytes} :
    ∀ block ∈ writtenBlocks catalog dependencies slots records contexts, block.tag ≠ 0 := by
  simp [writtenBlocks, BlockTag.byte_ne_zero]

theorem absorbWritten_writtenBlocks {catalog : Catalog} {dependencies : Bytes}
    (h : writeDependencies catalog.dependencies = .ok dependencies) (slots written : Bytes)
    (mode : SaveMode) (records : Records) :
    (writtenBlocks catalog dependencies slots written (contextBlock mode records).1).foldlM
        Draft.absorbWritten {}
      = .ok { file := {
          language := catalog.language
          dependencies := catalog.dependencies
          slots := Bytes.wordPairs32 slots
          records := written
          contexts := keptContexts mode records
          rules := ruleBlock catalog.language } } := by
  simp only [writtenBlocks, List.foldlM_cons, bind_eq_ok]
  exact ⟨_, absorbWritten_language _, _, absorbWritten_dependencies h rfl,
    _, absorbWritten_hashes _ rfl, _, absorbWritten_messages _ rfl,
    _, absorbWritten_contexts _ _ rfl, _, absorbWritten_pluralRules _ rfl, rfl⟩

theorem compile_eq_ok {options : Options} {catalog : Catalog} {compilation : Compilation}
    (h : (compile options catalog).2 = .ok compilation) :
    ∃ blocks, blocksOf options catalog
        (contextBlock options.saveMode (sortedRecords options catalog)).1 = .ok blocks
      ∧ assemble blocks = .ok compilation.bytes := by
  simp only [compile] at h
  split at h
  · cases h
  · next hbytes =>
    cases h
    exact bind_eq_ok.mp hbytes

/-- What is known of the file of a compiled catalog: its slots lead to the
records, which were written at their levels. -/
structure IsCompiled (options : Options) (catalog : Catalog) (file : File) : Prop where
  language : file.language = catalog.language
  dependencies : file.dependencies = catalog.dependencies
  rules : file.rules = ruleBlock catalog.language
  slots : List.Forall₂ (LeadsTo file.records)
    (levelled options.saveMode (sortedRecords options catalog)) file.slots
  contexts : file.contexts = keptContexts options.saveMode (sortedRecords options catalog)

/-- A compiled catalog is read as a file that leads to its records, and has
them as they were written. -/
theorem parse_compile_written {options : Options} {catalog : Catalog} {compilation : Compilation}
    (h : (compile options catalog).2 = .ok compilation) :
    ∃ file written, File.parse compilation.bytes = .ok file ∧ IsCompiled options catalog file
      ∧ writeRecords options.saveMode (sortedRecords options catalog) = .ok written
      ∧ file.records = written.flatten := by
  obtain ⟨blocks, hblocks, hbytes⟩ := compile_eq_ok h
  obtain ⟨written, hwritten, slots, hslots, dependencies, hdependencies, rfl⟩ :=
    blocksOf_eq_ok.mp hblocks
  rw [← map_levelled Prod.fst options.saveMode] at hslots
  have hleads := leadsTo_slots (writeRecords_eq_ok.mp hwritten) [] hslots
  exact ⟨_, written, parse_assemble hbytes tag_ne_zero_of_mem_writtenBlocks
      (absorbWritten_writtenBlocks hdependencies _ _ _ _), ⟨rfl, rfl, rfl, hleads, rfl⟩,
    hwritten, rfl⟩

theorem parse_compile {options : Options} {catalog : Catalog} {compilation : Compilation}
    (h : (compile options catalog).2 = .ok compilation) :
    ∃ file, File.parse compilation.bytes = .ok file ∧ IsCompiled options catalog file := by
  obtain ⟨file, _, hparse, hfile, -, -⟩ := parse_compile_written h
  exact ⟨file, hparse, hfile⟩

end MessageCatalog.Compiled
