/-
# `MessageCatalog.Proofs.Truncation` — what a front part of a compiled catalog decodes to

A block carries its length, so no block is the front of another one, and the
blocks that are read from a front part of a file are the first blocks of the
file.  The entries depend on three of them only, and these are written in
this order:

    language, slots, records

Without slots there are no entries; with slots and no records the first slot
leads out of the records; and with both there are the entries of the whole
file.  So a catalog that is cut off somewhere has none of its entries or all
of them, if it can be read at all.
-/
import MessageCatalog.Proofs.BlockReading
import MessageCatalog.Proofs.RoundTrip

namespace MessageCatalog.Compiled

/-! ## Blocks of a front part -/

/-- Bytes that begin with a block begin with no other one. -/
theorem eq_of_toBytes_append {block other : Block} {bytes bytes' rest rest' : Bytes}
    (h : block.toBytes = .ok bytes) (hother : other.toBytes = .ok bytes')
    (hsame : bytes ++ rest = bytes' ++ rest') : block = other ∧ rest = rest' := by
  obtain ⟨tag, payload⟩ := block
  obtain ⟨tag', payload'⟩ := other
  obtain ⟨body, hbody, rfl⟩ := tagged_eq_ok.mp h
  obtain ⟨body', hbody', rfl⟩ := tagged_eq_ok.mp hother
  rw [List.cons_append, List.cons_append] at hsame
  obtain ⟨rfl, hcounted⟩ := List.cons.inj hsame
  have htake := takeCounted_of_counted hbody rest
  have htake' := takeCounted_of_counted hbody' rest'
  rw [hcounted, htake'] at htake
  cases htake
  exact ⟨rfl, rfl⟩

/-- The blocks of a front part of some written blocks are the first of them. -/
theorem BlockSequence.isPrefix_of_front {front : Bytes} {read : List Block}
    (h : BlockSequence front read) :
    ∀ {blocks : List Block} {written : List Bytes},
      List.Forall₂ (fun block bytes => block.toBytes = .ok bytes) blocks written →
        front <+: written.flatten → read <+: blocks := by
  induction h with
  | short => exact fun _ _ => List.nil_prefix
  | mark => exact fun _ _ => List.nil_prefix
  | @block block bytes rest read _ _ hbytes _ ih =>
      intro blocks written hblocks hfront
      obtain ⟨tail, htail⟩ := hfront
      rw [List.append_assoc] at htail
      cases hblocks with
      | nil =>
          have hlength := length_of_tagged hbytes
          have hnil := (List.append_eq_nil_iff.mp htail).1
          rw [hnil, List.length_nil] at hlength
          omega
      | @cons other bytes' blocks written hother hblocks =>
          rw [List.flatten_cons] at htail
          obtain ⟨rfl, hrest⟩ := eq_of_toBytes_append hbytes hother htail
          exact List.cons_prefix_cons.mpr ⟨rfl, ih hblocks ⟨tail, hrest⟩⟩

/-! ## Entries of a file -/

/-- The entries of a file depend on its language, its slots and its records. -/
theorem File.map_entries_toCatalog {file other : File} (hlanguage : file.language = other.language)
    (hslots : file.slots = other.slots) (hrecords : file.records = other.records) :
    file.toCatalog.map Catalog.entries = other.toCatalog.map Catalog.entries := by
  unfold File.toCatalog
  rw [hlanguage, hslots, hrecords]
  cases readSlots other.records none other.slots with
  | error e => rfl
  | ok records =>
      simp only [bind, Except.bind]
      cases records.mapM (Record.toEntry? (Plural.formCount? other.language == some 1)) with
      | none => rfl
      | some entries => rfl

/-- Without records there are no entries, or a slot leads out of them. -/
theorem File.toCatalog_of_no_records {file : File} (h : file.records = []) :
    (∃ e, file.toCatalog = .error e) ∨ ∃ catalog, file.toCatalog = .ok catalog
      ∧ catalog.entries = [] := by
  unfold File.toCatalog
  rw [h]
  cases file.slots with
  | nil => exact Or.inr ⟨_, rfl, rfl⟩
  | cons slot slots =>
      refine Or.inl ⟨.outOfRange slot.2.toNat, ?_⟩
      simp [readSlots, Record.read, bind, Except.bind]

/-! ## Order of the blocks -/

/-- Behind the records there is nothing that entries depend on. -/
def Block.Precedes (block later : Block) : Prop :=
  block.kind? = some .messages →
    later.kind? ≠ some .language ∧ later.kind? ≠ some .hashes ∧ later.kind? ≠ some .messages

theorem pairwise_writtenBlocks (catalog : Catalog) (dependencies slots records contexts : Bytes) :
    (writtenBlocks catalog dependencies slots records contexts).Pairwise Block.Precedes := by
  simp [writtenBlocks, Block.Precedes, Block.kind?, BlockTag.ofByte?_byte]

theorem lastPayload_append {kind : BlockTag} {blocks later : List Block}
    (h : ∀ block ∈ later, block.kind? ≠ some kind) :
    lastPayload kind (blocks ++ later) = lastPayload kind blocks := by
  have hnone : later.filter (fun block => block.kind? = some kind) = [] := by
    rw [List.filter_eq_nil_iff]
    intro block hblock
    simpa using h block hblock
  rw [lastPayload, List.filter_append, hnone, List.append_nil, lastPayload]

theorem exists_mem_of_lastPayload {kind : BlockTag} {blocks : List Block}
    (h : lastPayload kind blocks ≠ []) : ∃ block ∈ blocks, block.kind? = some kind := by
  by_contra hnone
  have hlast : lastPayload kind ([] ++ blocks) = [] :=
    lastPayload_append fun block hblock hkind => hnone ⟨block, hblock, hkind⟩
  exact h hlast

/-! ## Catalogs -/

/-- The blocks of a compiled catalog were written one after the other, and
in their order. -/
theorem IsStructured.written_of_compile {options : Options} {catalog : Catalog}
    {compilation : Compilation} (h : (compile options catalog).2 = .ok compilation)
    {blocks : List Block} (hblocks : IsStructured compilation.bytes blocks) :
    blocks.Pairwise Block.Precedes
      ∧ ∃ written, List.Forall₂ (fun block bytes => block.toBytes = .ok bytes) blocks written
        ∧ magic ++ written.flatten = compilation.bytes := by
  obtain ⟨all, hall, hbytes⟩ := compile_eq_ok h
  obtain ⟨records, -, slots, -, dependencies, -, rfl⟩ := blocksOf_eq_ok.mp hall
  obtain ⟨written, hwritten, hflatten⟩ := assemble_eq_ok.mp hbytes
  have hsplit := hblocks.splitBlocks_eq
  rw [← hflatten, List.drop_left,
    splitBlocks_flatten hwritten (ne_of_mem_filter tag_ne_zero_of_mem_writtenBlocks)] at hsplit
  obtain ⟨rfl, -⟩ := Prod.mk.inj hsplit
  exact ⟨(pairwise_writtenBlocks _ _ _ _ _).sublist List.filter_sublist, written, hwritten,
    hflatten⟩

/-- A compiled catalog begins with the block of its language. -/
theorem language_isPrefix_of_compile {options : Options} {catalog : Catalog}
    {compilation : Compilation} (h : (compile options catalog).2 = .ok compilation)
    (hlanguage : Utf8.encode catalog.language ≠ []) {bytes : Bytes}
    (hbytes : Block.toBytes ⟨BlockTag.language.byte, Utf8.encode catalog.language⟩ = .ok bytes) :
    magic ++ bytes <+: compilation.bytes := by
  obtain ⟨blocks, hblocks, hassembled⟩ := compile_eq_ok h
  obtain ⟨records, -, slots, -, dependencies, -, rfl⟩ := blocksOf_eq_ok.mp hblocks
  obtain ⟨written, hwritten, hflatten⟩ := assemble_eq_ok.mp hassembled
  rw [writtenBlocks, List.filter_cons, if_pos (by simpa using hlanguage)] at hwritten
  cases hwritten with
  | cons hfirst _ =>
      cases hbytes.symm.trans hfirst
      rw [← hflatten, List.flatten_cons]
      exact (List.prefix_append_right_inj _).mpr (List.prefix_append _ _)

/-- A file with the first of some blocks has the entries of the whole file as
soon as it has records. -/
theorem File.Holds.map_entries_toCatalog {file whole : File} {read later : List Block}
    (hfile : file.Holds read) (hwhole : whole.Holds (read ++ later))
    (horder : (read ++ later).Pairwise Block.Precedes) (hrecords : file.records ≠ []) :
    file.toCatalog.map Catalog.entries = whole.toCatalog.map Catalog.entries := by
  rw [hfile.records] at hrecords
  obtain ⟨block, hblock, hmessages⟩ := exists_mem_of_lastPayload hrecords
  have hlater : ∀ other ∈ later, other.kind? ≠ some .language ∧ other.kind? ≠ some .hashes
      ∧ other.kind? ≠ some .messages := by
    intro other hother
    exact (List.pairwise_append.mp horder).2.2 block hblock other hother hmessages
  refine File.map_entries_toCatalog ?_ ?_ ?_
  · apply Option.some.inj
    rw [← hfile.language, ← hwhole.language,
      lastPayload_append fun other hother => (hlater other hother).1]
  · rw [hfile.slots, hwhole.slots, slotsOf, slotsOf,
      lastPayload_append fun other hother => (hlater other hother).2.1]
  · rw [hfile.records, hwhole.records,
      lastPayload_append fun other hother => (hlater other hother).2.2]

/-- A front part of a compiled catalog, if it is not complained about, has no
entries or those of the whole. -/
theorem decompile_front {options : Options} {catalog : Catalog} {compilation : Compilation}
    (h : (compile options catalog).2 = .ok compilation) {front : Bytes}
    (hfront : front <+: compilation.bytes) :
    (∃ e, decompile front = .error e)
      ∨ ∃ part, decompile front = .ok part
        ∧ (part.entries = [] ∨ ∃ whole, decompile compilation.bytes = .ok whole
          ∧ part.entries = whole.entries) := by
  obtain ⟨whole, hwhole, -⟩ := parse_compile h
  obtain ⟨blocks, hblocks, hholds⟩ := exists_holds_of_parse hwhole
  obtain ⟨horder, written, hwritten, hbytes⟩ := hblocks.written_of_compile h
  have hdecompile : decompile compilation.bytes = whole.toCatalog := by
    rw [decompile, hwhole]
    rfl
  have houtcome := outcome_parse front
  unfold decompile at hdecompile ⊢
  rw [hdecompile]
  generalize File.parse front = parsed at houtcome ⊢
  cases houtcome with
  | broken => exact Or.inl ⟨_, rfl⟩
  | illegible => exact Or.inl ⟨_, rfl⟩
  | @read read file hread _ hfile =>
      show (∃ e, file.toCatalog = .error e) ∨ ∃ part, file.toCatalog = .ok part ∧ _
      have hfirst : read <+: blocks := by
        refine hread.sequence.isPrefix_of_front hwritten ?_
        have hdrop := hfront.drop magic.length
        rwa [← hbytes, List.drop_left] at hdrop
      obtain ⟨later, rfl⟩ := hfirst
      by_cases hrecords : file.records = []
      · rcases File.toCatalog_of_no_records hrecords with hfault | ⟨part, hpart, hnone⟩
        · exact Or.inl hfault
        · exact Or.inr ⟨part, hpart, Or.inl hnone⟩
      · have hentries := hfile.map_entries_toCatalog hholds horder hrecords
        cases hpart : file.toCatalog with
        | error e => exact Or.inl ⟨e, rfl⟩
        | ok part =>
            rw [hpart] at hentries
            obtain ⟨catalog, hcatalog, hsame⟩ := map_eq_ok.mp hentries.symm
            exact Or.inr ⟨part, rfl, Or.inr ⟨catalog, hcatalog, hsame.symm⟩⟩

/-- Cut off behind the language there are no entries, and cut off in it there is
a fault. -/
theorem decompile_front_colliding :
    ∃ compilation, (compile { saveMode := .stripped } colliding).2 = .ok compilation
      ∧ (∃ front part, front <+: compilation.bytes ∧ decompile front = .ok part
        ∧ part.language = "ja" ∧ part.entries = [])
      ∧ ∃ front, front <+: compilation.bytes ∧ front ≠ compilation.bytes
        ∧ decompile front = .error (.truncatedBlock 0xa7 2 1) := by
  obtain ⟨compilation, h⟩ := exists_compile_colliding .stripped
  have hfront : magic ++ [0xa7, 0, 0, 0, 2, 0x6a, 0x61] <+: compilation.bytes :=
    language_isPrefix_of_compile h (by decide) rfl
  have hcut : magic ++ [0xa7, 0, 0, 0, 2, 0x6a] <+: compilation.bytes :=
    (List.prefix_append _ [0x61]).trans hfront
  have hread : decompile (magic ++ [0xa7, 0, 0, 0, 2, 0x6a, 0x61])
      = .ok { language := "ja" } := by
    decide +kernel
  refine ⟨compilation, h, ?_, _, hcut, ?_, ?_⟩
  · rcases decompile_front h hfront with ⟨e, hfault⟩ | ⟨part, hpart, -⟩
    · rw [hread] at hfault
      cases hfault
    · cases hread.symm.trans hpart
      exact ⟨_, _, hfront, hpart, rfl, rfl⟩
  · intro hsame
    have hlength := (hsame ▸ hfront).length_le
    simp at hlength
  · decide +kernel

end MessageCatalog.Compiled
