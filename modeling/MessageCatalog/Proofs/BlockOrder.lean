/-
# `MessageCatalog.Proofs.BlockOrder` — the order of the blocks in a file

A file takes in its blocks one after the other, and every known block sets
one part of it.  Where no two blocks set the same part, the outcome can be
told without their order:

    File.parse bytes = .ok file
      ↔ every block is written for the part it sets, and
        every part that no block sets is as in the empty file

(`File.Extends`).  An unknown block sets no part, so it is not in the way of
this wherever it stands.  The right-hand side is the same for blocks in
another order, and so a file is read to the same effect however its blocks
are arranged.
-/
import MessageCatalog.Proofs.BlockReading
import MessageCatalog.Proofs.Size

namespace MessageCatalog.Compiled

/-! ## Parts of a file -/

/-- What a kind of block sets in a file. -/
def File.Part : BlockTag → Type
  | .contexts => Option ContextTable
  | .hashes => List (UInt32 × UInt32)
  | .messages | .pluralRules => Bytes
  | .dependencies => List String
  | .language => String

/-- The part of a file that a kind of block sets. -/
def File.part (file : File) : (kind : BlockTag) → File.Part kind
  | .contexts => file.contexts
  | .hashes => file.slots
  | .messages => file.records
  | .pluralRules => file.rules
  | .dependencies => file.dependencies
  | .language => file.language

/-- A file with another part in place of its own. -/
def File.withPart (file : File) : (kind : BlockTag) → File.Part kind → File
  | .contexts, contexts => { file with contexts }
  | .hashes, slots => { file with slots }
  | .messages, records => { file with records }
  | .pluralRules, rules => { file with rules }
  | .dependencies, dependencies => { file with dependencies }
  | .language, language => { file with language }

/-- The payload of a block of some kind is well formed and stands for a
part. -/
def File.IsWritten : (kind : BlockTag) → Bytes → File.Part kind → Prop
  | .contexts, payload, contexts =>
    ∃ table, ContextTable.parse payload = .ok table ∧ contexts = some table
  | .hashes, payload, slots => slots = Bytes.wordPairs32 payload
  | .messages, payload, records => records = payload
  | .pluralRules, payload, rules => rules = payload
  | .dependencies, payload, names => readNames 0 payload = .ok (names.map fun name => ⟨name, true⟩)
  | .language, payload, language => Utf8.decode payload = some language

theorem File.part_withPart_self (file : File) (kind : BlockTag) (part : File.Part kind) :
    (file.withPart kind part).part kind = part := by
  cases kind <;> rfl

theorem File.part_withPart_of_ne (file : File) {kind other : BlockTag} (h : other ≠ kind)
    (part : File.Part kind) : (file.withPart kind part).part other = file.part other := by
  cases kind <;> cases other <;> first | rfl | exact absurd rfl h

theorem File.eq_of_part {file other : File} (h : ∀ kind, file.part kind = other.part kind) :
    file = other := by
  cases file
  cases other
  congr
  · exact h .language
  · exact h .dependencies
  · exact h .hashes
  · exact h .messages
  · exact h .contexts
  · exact h .pluralRules

/-! ## One block -/

theorem absorb_of_unknown {block : Block} (h : block.kind? = none) (draft : Draft) :
    draft.absorb block = .ok draft := by
  rw [Draft.absorb, ← Block.kind?, h]

/-- Readings that are all valid are determined by their texts. -/
theorem eq_map_valid_iff {names : List Utf16.Reading} (texts : List String) :
    names = texts.map (fun text => ⟨text, true⟩)
      ↔ names.map Utf16.Reading.text = texts ∧ (names.any fun name => !name.valid) = false := by
  constructor
  · rintro rfl
    exact ⟨Utf16.map_text_readings texts, by simp⟩
  · rintro ⟨rfl, hvalid⟩
    rw [List.map_map]
    refine (List.map_id names).symm.trans (List.map_congr_left ?_)
    intro name hname
    have hname : name.valid = true := by simpa using List.any_eq_false.mp hvalid name hname
    show name = ⟨name.text, true⟩
    rw [← hname]

theorem ok_draft_iff {file next : File} :
    (Except.ok { file } : Except Error Draft) = .ok { file := next } ↔ file = next := by
  constructor
  · intro h
    cases h
    rfl
  · rintro rfl
    rfl

/-- A known block is taken in without complaint if it is well formed, and
sets the part that it stands for. -/
theorem absorb_iff {block : Block} {kind : BlockTag} (h : block.kind? = some kind)
    {file next : File} :
    Draft.absorb { file } block = .ok { file := next }
      ↔ ∃ part, File.IsWritten kind block.payload part ∧ file.withPart kind part = next := by
  rw [Draft.absorb, ← Block.kind?, h]
  cases kind with
  | contexts =>
      refine bind_eq_ok.trans ?_
      constructor
      · rintro ⟨table, htable, hnext⟩
        exact ⟨some table, ⟨table, htable, rfl⟩, ok_draft_iff.mp hnext⟩
      · rintro ⟨_, ⟨table, htable, rfl⟩, hnext⟩
        exact ⟨table, htable, ok_draft_iff.mpr hnext⟩
  | hashes | messages | pluralRules =>
      refine ok_draft_iff.trans ?_
      constructor
      · exact fun hnext => ⟨_, rfl, hnext⟩
      · rintro ⟨_, rfl, hnext⟩
        exact hnext
  | dependencies =>
      refine bind_eq_ok.trans ?_
      constructor
      · rintro ⟨names, hnames, hnext⟩
        obtain ⟨hfile, hvalid⟩ := Draft.mk.inj (pure_eq_ok.mp hnext)
        refine ⟨names.map Utf16.Reading.text, hnames.trans (congrArg Except.ok ?_), hfile⟩
        exact (eq_map_valid_iff _).mpr ⟨rfl, hvalid⟩
      · rintro ⟨texts, htexts, rfl⟩
        refine ⟨_, htexts, pure_eq_ok.mpr ?_⟩
        obtain ⟨hnames, hvalid⟩ := (eq_map_valid_iff texts).mp rfl
        rw [hnames, hvalid]
        rfl
  | language =>
      cases hlanguage : Utf8.decode block.payload with
      | none =>
          constructor
          · intro hnext
            cases hnext
          · rintro ⟨language, hwritten, -⟩
            cases hlanguage.symm.trans hwritten
      | some language =>
          refine ok_draft_iff.trans ?_
          constructor
          · exact fun hnext => ⟨language, hlanguage, hnext⟩
          · rintro ⟨other, hwritten, hnext⟩
            cases hlanguage.symm.trans hwritten
            exact hnext

/-! ## Blocks one after the other -/

/-- A file has, on top of another one, what some blocks set and nothing
else. -/
structure File.Extends (next file : File) (blocks : List Block) : Prop where
  sets : ∀ block ∈ blocks, ∀ kind, block.kind? = some kind →
    File.IsWritten kind block.payload (next.part kind)
  keeps : ∀ kind, kind ∉ blocks.filterMap Block.kind? → next.part kind = file.part kind

section

variable {file next : File} {block : Block} {rest : List Block}

theorem File.extends_nil : next.Extends file [] ↔ file = next := by
  constructor
  · exact fun h => (File.eq_of_part fun kind => h.keeps kind List.not_mem_nil).symm
  · rintro rfl
    exact ⟨nofun, fun _ _ => rfl⟩

theorem File.extends_cons_of_unknown (h : block.kind? = none) :
    next.Extends file (block :: rest) ↔ next.Extends file rest := by
  constructor
  · rintro ⟨hsets, hkeeps⟩
    rw [List.filterMap_cons_none h] at hkeeps
    exact ⟨fun b hb => hsets b (List.mem_cons_of_mem _ hb), hkeeps⟩
  · rintro ⟨hsets, hkeeps⟩
    refine ⟨List.forall_mem_cons.mpr ⟨?_, hsets⟩, ?_⟩
    · intro kind hkind
      cases h.symm.trans hkind
    · rwa [List.filterMap_cons_none h]

theorem File.extends_cons {kind : BlockTag} (h : block.kind? = some kind)
    (hnew : kind ∉ rest.filterMap Block.kind?) :
    next.Extends file (block :: rest)
      ↔ ∃ part, File.IsWritten kind block.payload part
        ∧ next.Extends (file.withPart kind part) rest := by
  constructor
  · rintro ⟨hsets, hkeeps⟩
    rw [List.filterMap_cons_some h] at hkeeps
    obtain ⟨hblock, hrest⟩ := List.forall_mem_cons.mp hsets
    refine ⟨next.part kind, hblock kind h, hrest, ?_⟩
    intro other hother
    by_cases hsame : other = kind
    · rw [hsame, File.part_withPart_self]
    · rw [File.part_withPart_of_ne file hsame]
      refine hkeeps other fun hmem => ?_
      rcases List.mem_cons.mp hmem with heq | hmem
      · exact hsame heq
      · exact hother hmem
  · rintro ⟨part, hpart, hsets, hkeeps⟩
    refine ⟨List.forall_mem_cons.mpr ⟨?_, hsets⟩, ?_⟩
    · intro other hother
      cases h.symm.trans hother
      rwa [hkeeps kind hnew, File.part_withPart_self]
    · intro other hother
      rw [List.filterMap_cons_some h, List.mem_cons, not_or] at hother
      rw [hkeeps other hother.2, File.part_withPart_of_ne file hother.1]

end

theorem foldlM_absorb_of_invalid {blocks : List Block} :
    ∀ {draft : Draft} {file : File}, draft.invalid = true →
      blocks.foldlM Draft.absorb draft ≠ .ok { file } := by
  induction blocks with
  | nil =>
      rintro draft file hinvalid h
      rw [pure_eq_ok.mp h] at hinvalid
      cases hinvalid
  | cons block blocks ih =>
      rintro draft file hinvalid h
      obtain ⟨next, hnext, h⟩ := bind_eq_ok.mp h
      have houtcome := outcome_absorb draft block
      rw [hnext] at houtcome
      cases houtcome with
      | taken htakes => exact ih (htakes.invalid.mpr (.inl hinvalid)) h

/-- Blocks that set different parts are taken in without complaint exactly if
each of them is well formed, and set what they stand for. -/
theorem foldlM_absorb_iff {blocks : List Block}
    (hkinds : (blocks.filterMap Block.kind?).Nodup) :
    ∀ {file next : File}, blocks.foldlM Draft.absorb { file } = .ok { file := next }
      ↔ next.Extends file blocks := by
  induction blocks with
  | nil => exact ok_draft_iff.trans File.extends_nil.symm
  | cons block blocks ih =>
      intro file next
      cases hkind : block.kind? with
      | none =>
          rw [List.filterMap_cons_none hkind] at hkinds
          rw [List.foldlM_cons, absorb_of_unknown hkind, File.extends_cons_of_unknown hkind]
          exact ih hkinds
      | some kind =>
          rw [List.filterMap_cons_some hkind, List.nodup_cons] at hkinds
          rw [List.foldlM_cons, bind_eq_ok, File.extends_cons hkind hkinds.1]
          constructor
          · rintro ⟨⟨mid, invalid⟩, hmid, h⟩
            cases invalid with
            | true => exact absurd h (foldlM_absorb_of_invalid rfl)
            | false =>
                obtain ⟨part, hpart, rfl⟩ := (absorb_iff hkind).mp hmid
                exact ⟨part, hpart, (ih hkinds.2).mp h⟩
          · rintro ⟨part, hpart, h⟩
            exact ⟨_, (absorb_iff hkind).mpr ⟨part, hpart, rfl⟩, (ih hkinds.2).mpr h⟩

/-! ## Files -/

/-- A block that can be written and is read as a block again. -/
structure Block.IsProper (block : Block) : Prop where
  tag : block.tag ≠ 0
  payload : block.payload ≠ []
  length : block.payload.length < 4294967296

theorem ofBlocks_eq_ok {blocks : List Block} {file : File} :
    File.ofBlocks blocks none = .ok file ↔ blocks.foldlM Draft.absorb {} = .ok { file } := by
  refine bind_eq_ok.trans ?_
  constructor
  · rintro ⟨⟨read, invalid⟩, hread, h⟩
    cases invalid with
    | true => cases h
    | false =>
        rw [hread, ← Except.ok.inj h]
  · exact fun h => ⟨_, h, rfl⟩

/-- What is read of blocks that set different parts, told without their
order. -/
theorem parse_assemble_iff {blocks : List Block} (hblocks : ∀ block ∈ blocks, block.IsProper)
    (hkinds : (blocks.filterMap Block.kind?).Nodup) {bytes : Bytes}
    (h : assemble blocks = .ok bytes) {file : File} :
    File.parse bytes = .ok file ↔ file.Extends {} blocks := by
  have hall : blocks.filter (fun block => !block.payload.isEmpty) = blocks := by
    refine List.filter_eq_self.mpr fun block hblock => ?_
    simpa using (hblocks block hblock).payload
  rw [parse_eq_ofBlocks h fun block hblock => (hblocks block hblock).tag, hall, ofBlocks_eq_ok]
  exact foldlM_absorb_iff hkinds

/-- What a file is to have depends on the known blocks only, and not on their
order. -/
theorem File.extends_congr {blocks others : List Block}
    (h : ∀ block, block.kind?.isSome → (block ∈ blocks ↔ block ∈ others)) {next file : File} :
    next.Extends file blocks → next.Extends file others := by
  rintro ⟨hsets, hkeeps⟩
  refine ⟨?_, ?_⟩
  · intro block hblock kind hkind
    exact hsets block ((h block (Option.isSome_of_eq_some hkind)).mpr hblock) kind hkind
  · intro kind hkind
    refine hkeeps kind fun hmem => hkind ?_
    obtain ⟨block, hblock, hkind⟩ := List.mem_filterMap.mp hmem
    exact List.mem_filterMap.mpr
      ⟨block, (h block (Option.isSome_of_eq_some hkind)).mp hblock, hkind⟩

theorem filterMap_kind_filter (blocks : List Block) :
    (blocks.filter fun block => block.kind?.isSome).filterMap Block.kind?
      = blocks.filterMap Block.kind? := by
  rw [List.filterMap_filter]
  refine List.filterMap_congr fun block _ => ?_
  cases block.kind? <;> rfl

/-- Blocks that set different parts are read to the same effect in any other
order and with any other unknown blocks among them. -/
theorem parse_assemble_perm {blocks others : List Block}
    (hblocks : ∀ block ∈ blocks, block.IsProper) (hothers : ∀ block ∈ others, block.IsProper)
    (hkinds : (blocks.filterMap Block.kind?).Nodup)
    (hperm : (blocks.filter fun block => block.kind?.isSome).Perm
      (others.filter fun block => block.kind?.isSome)) :
    ∃ bytes bytes', assemble blocks = .ok bytes ∧ assemble others = .ok bytes'
      ∧ ∀ file, File.parse bytes = .ok file ↔ File.parse bytes' = .ok file := by
  obtain ⟨bytes, hbytes⟩ := exists_assemble fun block hblock => (hblocks block hblock).length
  obtain ⟨bytes', hbytes'⟩ := exists_assemble fun block hblock => (hothers block hblock).length
  have hkinds' : (others.filterMap Block.kind?).Nodup := by
    have hperm := hperm.filterMap Block.kind?
    rw [filterMap_kind_filter, filterMap_kind_filter] at hperm
    exact hperm.nodup_iff.mp hkinds
  have hmem : ∀ block, block.kind?.isSome → (block ∈ blocks ↔ block ∈ others) := by
    intro block hknown
    have hiff := hperm.mem_iff (a := block)
    rwa [List.mem_filter, List.mem_filter, and_iff_left hknown, and_iff_left hknown] at hiff
  refine ⟨bytes, bytes', hbytes, hbytes', fun file => ?_⟩
  rw [parse_assemble_iff hblocks hkinds hbytes, parse_assemble_iff hothers hkinds' hbytes']
  exact ⟨File.extends_congr hmem, File.extends_congr fun block hknown => (hmem block hknown).symm⟩

/-- A language, an unknown block, a slot, a record and a context table without
buckets. -/
def ordered : List Block :=
  [⟨0xA7, [0x64, 0x65]⟩, ⟨0x10, [7]⟩, ⟨0x42, [0, 0, 0, 5, 0, 0, 0, 0]⟩, ⟨0x69, [1]⟩, ⟨0x2F, [0, 0]⟩]

/-- The known blocks of `ordered` the other way round, among other unknown
ones. -/
def rearranged : List Block :=
  [⟨0x2F, [0, 0]⟩, ⟨0x11, [8, 9]⟩, ⟨0x69, [1]⟩, ⟨0x42, [0, 0, 0, 5, 0, 0, 0, 0]⟩, ⟨0x11, [8]⟩,
    ⟨0xA7, [0x64, 0x65]⟩]

instance (block : Block) : Decidable block.IsProper :=
  decidable_of_iff (block.tag ≠ 0 ∧ block.payload ≠ [] ∧ block.payload.length < 4294967296)
    ⟨fun h => ⟨h.1, h.2.1, h.2.2⟩, fun h => ⟨h.tag, h.payload, h.length⟩⟩

/-- What both are read as. -/
def arrangedFile : File where
  language := "de"
  slots := [(5, 0)]
  records := [1]
  contexts := some { places := #[], pool := #[] }

theorem extends_arrangedFile : arrangedFile.Extends {} ordered where
  sets := by
    have hset : ∀ (kind : BlockTag) {payload : Bytes},
        File.IsWritten kind payload (arrangedFile.part kind) →
          ∀ other, some kind = some other →
            File.IsWritten other payload (arrangedFile.part other) := by
      rintro kind payload h _ ⟨⟩
      exact h
    simp only [ordered, List.forall_mem_cons]
    refine ⟨?_, nofun, ?_, ?_, ?_, nofun⟩
    · exact hset .language (Utf8.decode_encode "de")
    · exact hset .hashes rfl
    · exact hset .messages rfl
    · exact hset .contexts ⟨_, rfl, rfl⟩
  keeps := by
    intro kind hkind
    cases kind with
    | dependencies | pluralRules => rfl
    | contexts | hashes | messages | language => exact absurd (by decide) hkind

theorem parse_assemble_perm_rearranged :
    ∃ bytes bytes', assemble ordered = .ok bytes ∧ assemble rearranged = .ok bytes'
      ∧ File.parse bytes = .ok arrangedFile ∧ File.parse bytes' = .ok arrangedFile := by
  obtain ⟨bytes, bytes', hbytes, hbytes', hsame⟩ :=
    @parse_assemble_perm ordered rearranged (by decide) (by decide) (by decide) (by decide)
  have hread := (parse_assemble_iff (by decide) (by decide) hbytes).mpr extends_arrangedFile
  exact ⟨bytes, bytes', hbytes, hbytes', hread, (hsame _).mp hread⟩

end MessageCatalog.Compiled
