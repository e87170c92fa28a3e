/-
# `MessageCatalog.Proofs.BlockReading` — the blocks of a file, and their faults

The bytes behind the magic ones are a sequence of blocks, up to a place where
no other block begins (`BlockSequence`).  A file takes them in one by one.
Two things can be wrong with a block, and they are kept apart:

    it cannot be taken apart         the reading ends there, with the fault
    a text in it is ill formed       the reading goes on, and remembers that

So a fault of the first kind is never `Error.invalidText`, and one of the
second kind is complained about only where all blocks can be taken apart
(`ParseOutcome`).  A file that is read has the language, the slots and the
records of the last block of each kind.
-/
import Mathlib.Data.List.Induction
import MessageCatalog.Compiled.File
import MessageCatalog.Proofs.Wire

namespace MessageCatalog

/-! ## Bytes that were read -/

namespace Bytes

theorem ofWord32_word32 (a b c d : UInt8) : ofWord32 (word32 a b c d) = [a, b, c, d] := by
  have ha := a.toNat_lt
  have hb := b.toNat_lt
  have hc := c.toNat_lt
  have hd := d.toNat_lt
  simp only [ofWord32, word32, List.cons.injEq, and_true]
  refine ⟨?_, ?_, ?_, ?_⟩ <;> apply UInt8.toNat_inj.mp <;> simp <;> omega

theorem eq_append_of_takeWord32 {bytes rest : Bytes} {w : UInt32}
    (h : takeWord32 bytes = some (w, rest)) : bytes = ofWord32 w ++ rest := by
  match bytes with
  | [] | [_] | [_, _] | [_, _, _] => cases h
  | a :: b :: c :: d :: tail =>
    cases h
    rw [ofWord32_word32]
    rfl

theorem takeWord32_eq_none {bytes : Bytes} (h : takeWord32 bytes = none) : bytes.length < 4 := by
  match bytes with
  | [] | [_] | [_, _] | [_, _, _] => simp
  | _ :: _ :: _ :: _ :: _ => cases h

theorem eq_append_of_take? {count : Nat} {bytes front rest : Bytes}
    (h : take? count bytes = some (front, rest)) : bytes = front ++ rest := by
  unfold take? at h
  dsimp only at h
  split at h
  · cases h
    exact (List.take_append_drop count bytes).symm
  · cases h

end Bytes

namespace Compiled

/-! ## Sequences of blocks -/

/-- The blocks at the front of some bytes, up to a place where no other one
begins. -/
inductive BlockSequence : Bytes → List Block → Prop
  /-- There is no room for a tag and a length. -/
  | short {bytes : Bytes} : bytes.length < 5 → BlockSequence bytes []
  /-- A tag or a length of zero ends the sequence. -/
  | mark {tag : UInt8} {length : UInt32} {rest : Bytes} : tag = 0 ∨ length = 0 →
      BlockSequence (tag :: (Bytes.ofWord32 length ++ rest)) []
  | block {block : Block} {bytes rest : Bytes} {blocks : List Block} : block.tag ≠ 0 →
      block.payload ≠ [] → block.toBytes = .ok bytes → BlockSequence rest blocks →
      BlockSequence (bytes ++ rest) (block :: blocks)

/-- A block that was taken from some bytes is what they began with. -/
theorem toBytes_of_take {tag : UInt8} {length : UInt32} {bytes payload rest : Bytes}
    (h : Bytes.take? length.toNat bytes = some (payload, rest)) :
    (Block.mk tag payload).toBytes = .ok (tag :: (Bytes.ofWord32 length ++ payload)) := by
  have hlength := (Bytes.length_of_take? h).1
  have hbody : counted payload = .ok (Bytes.ofWord32 length ++ payload) := by
    refine counted_eq_ok.mpr ⟨?_, ?_⟩
    · rw [hlength]
      exact length.toNat_lt
    · rw [hlength, UInt32.ofNat_toNat]
  exact tagged_eq_ok.mpr ⟨_, hbody, rfl⟩

theorem blockSequence_splitBlocks (bytes : Bytes) :
    (splitBlocks bytes).2 = none → BlockSequence bytes (splitBlocks bytes).1 := by
  fun_induction splitBlocks bytes with
  | case1 =>
      intro _
      exact .short (by decide)
  | case2 tag rest hword =>
      intro _
      refine .short ?_
      have hlength := Bytes.takeWord32_eq_none hword
      rw [List.length_cons]
      omega
  | case3 tag rest length rest' hword hmark =>
      intro _
      rw [Bytes.eq_append_of_takeWord32 hword]
      exact .mark (by simpa using hmark)
  | case4 tag rest length rest' hword hmark htake =>
      intro h
      cases h
  | case5 tag rest length rest' hword hmark payload rest'' htake blocks fault hsplit ih =>
      intro h
      have htag : tag ≠ 0 ∧ length ≠ 0 := by simpa using hmark
      have hpayload : payload ≠ [] := by
        rintro rfl
        have hlength := (Bytes.length_of_take? htake).1
        exact htag.2 (UInt32.toNat_inj.mp hlength.symm)
      rw [hsplit] at ih
      rw [Bytes.eq_append_of_takeWord32 hword, Bytes.eq_append_of_take? htake,
        ← List.append_assoc, ← List.cons_append]
      exact .block htag.1 hpayload (toBytes_of_take htake) (ih h)

/-- The sequence of blocks of some bytes is what is split off, without a
fault. -/
theorem splitBlocks_eq_iff {bytes : Bytes} {blocks : List Block} :
    splitBlocks bytes = (blocks, none) ↔ BlockSequence bytes blocks := by
  constructor
  · intro h
    have hsequence := blockSequence_splitBlocks bytes (congrArg Prod.snd h)
    rw [h] at hsequence
    exact hsequence
  · intro h
    induction h with
    | @short bytes hshort =>
        match bytes with
        | [] => rw [splitBlocks]
        | tag :: rest =>
          rw [List.length_cons] at hshort
          rw [splitBlocks]
          split
          · rfl
          · next hword =>
            have hlength := Bytes.length_of_takeWord32 hword
            omega
    | @mark tag length rest hmark =>
        rw [splitBlocks]
        split
        · rfl
        · next hword =>
          rw [Bytes.takeWord32_ofWord32] at hword
          cases hword
          rw [if_pos (by simpa using hmark)]
    | block htag hpayload hbytes _ ih => rw [splitBlocks_toBytes hbytes htag hpayload, ih]

/-- The only fault in a sequence of blocks is a block that does not fit. -/
theorem splitBlocks_ne_invalidText (bytes : Bytes) :
    (splitBlocks bytes).2 ≠ some .invalidText := by
  fun_induction splitBlocks bytes with
  | case1 | case2 | case3 | case4 => nofun
  | case5 tag rest length rest' hword hmark payload rest'' htake blocks fault hsplit ih =>
      rw [hsplit] at ih
      exact ih

/-! ## Readers that do not look at texts -/

theorem readText16_ne_invalidText (offset : Nat) (bytes : Bytes) :
    readText16 offset bytes ≠ .error .invalidText := by
  unfold readText16
  split
  · nofun
  · split
    · nofun
    · split
      · nofun
      · split <;> nofun

theorem readNames_ne_invalidText (offset : Nat) (bytes : Bytes) :
    readNames offset bytes ≠ .error .invalidText := by
  fun_induction readNames offset bytes with
  | case1 => nofun
  | case2 offset bytes _ e hname =>
      intro h
      rw [Except.error.inj h] at hname
      exact readText16_ne_invalidText _ _ hname
  | case3 offset bytes _ name size rest hname e hnames ih =>
      intro h
      rw [Except.error.inj h] at hnames
      exact ih hnames
  | case4 => nofun

theorem ContextTable.parse_ne_invalidText (block : Bytes) :
    ContextTable.parse block ≠ .error .invalidText := by
  unfold ContextTable.parse
  dsimp only
  split
  · split <;> nofun
  · nofun

/-! ## What a file takes from a block -/

/-- What a block holds, if its tag is known. -/
def Block.kind? (block : Block) : Option BlockTag := BlockTag.ofByte? block.tag

/-- A block can be taken apart. -/
def Block.IsSound (block : Block) : Prop :=
  match block.kind? with
  | some .dependencies => ∃ names, readNames 0 block.payload = .ok names
  | some .contexts => ∃ table, ContextTable.parse block.payload = .ok table
  | _ => True

/-- No text in a block is ill formed. -/
def Block.IsLegible (block : Block) : Prop :=
  match block.kind? with
  | some .language => ∃ language, Utf8.decode block.payload = some language
  | some .dependencies =>
    ∀ names, readNames 0 block.payload = .ok names → ∀ name ∈ names, name.valid = true
  | _ => True

/-- No text in some blocks is ill formed. -/
def BlocksLegible (blocks : List Block) : Prop := ∀ block ∈ blocks, block.IsLegible

/-- What is known of a file that has taken a block. -/
structure Draft.Takes (draft : Draft) (block : Block) (next : Draft) : Prop where
  sound : block.IsSound
  invalid : next.invalid = true ↔ draft.invalid = true ∨ ¬ block.IsLegible
  slots : next.file.slots
    = if block.kind? = some .hashes then Bytes.wordPairs32 block.payload else draft.file.slots
  records : next.file.records
    = if block.kind? = some .messages then block.payload else draft.file.records
  language : if block.kind? = some .language
    then block.IsLegible → Utf8.decode block.payload = some next.file.language
    else next.file.language = draft.file.language

/-- What taking in a block comes to. -/
inductive AbsorbOutcome (draft : Draft) (block : Block) : Except Error Draft → Prop
  | taken {next : Draft} : draft.Takes block next → AbsorbOutcome draft block (.ok next)
  | refused {e : Error} : ¬ block.IsSound → e ≠ .invalidText → AbsorbOutcome draft block (.error e)

theorem outcome_absorb (draft : Draft) (block : Block) :
    AbsorbOutcome draft block (draft.absorb block) := by
  rw [Draft.absorb, ← Block.kind?]
  cases hkind : block.kind? with
  | none =>
      refine .taken ?_
      constructor <;> simp [Block.IsSound, Block.IsLegible, hkind]
  | some kind =>
      cases kind with
      | language =>
          cases hlanguage : Utf8.decode block.payload with
          | none =>
              refine .taken ?_
              constructor <;> simp [Block.IsSound, Block.IsLegible, hkind, hlanguage]
          | some language =>
              refine .taken ?_
              constructor <;> simp [Block.IsSound, Block.IsLegible, hkind, hlanguage]
      | dependencies =>
          cases hnames : readNames 0 block.payload with
          | error e =>
              refine .refused (by simp [Block.IsSound, hkind, hnames]) ?_
              rintro rfl
              exact readNames_ne_invalidText _ _ hnames
          | ok names =>
              refine .taken ?_
              constructor <;> simp [Block.IsSound, Block.IsLegible, hkind, hnames]
      | contexts =>
          cases htable : ContextTable.parse block.payload with
          | error e =>
              refine .refused (by simp [Block.IsSound, hkind, htable]) ?_
              rintro rfl
              exact ContextTable.parse_ne_invalidText _ htable
          | ok table =>
              refine .taken ?_
              constructor <;> simp [Block.IsSound, Block.IsLegible, hkind, htable]
      | hashes | messages | pluralRules =>
          refine .taken ?_
          constructor <;> simp [Block.IsSound, Block.IsLegible, hkind]

/-! ## What a file takes from its blocks -/

/-- The payload of the last block of a kind.  Where there is none it is
empty. -/
def lastPayload (kind : BlockTag) (blocks : List Block) : Bytes :=
  ((blocks.filter fun block => block.kind? = some kind).getLast?.map Block.payload).getD []

theorem lastPayload_concat (kind : BlockTag) (blocks : List Block) (block : Block) :
    lastPayload kind (blocks ++ [block])
      = if block.kind? = some kind then block.payload else lastPayload kind blocks := by
  unfold lastPayload
  rw [List.filter_append]
  by_cases hkind : block.kind? = some kind
  · simp [hkind]
  · simp [hkind]

/-- What is known of a file that has taken some blocks, one after the other. -/
structure Draft.HasTaken (blocks : List Block) (draft : Draft) : Prop where
  sound : ∀ block ∈ blocks, block.IsSound
  invalid : draft.invalid = true ↔ ∃ block ∈ blocks, ¬ block.IsLegible
  slots : draft.file.slots = Bytes.wordPairs32 (lastPayload .hashes blocks)
  records : draft.file.records = lastPayload .messages blocks
  language : BlocksLegible blocks →
    Utf8.decode (lastPayload .language blocks) = some draft.file.language

theorem Draft.hasTaken_nil : Draft.HasTaken [] {} where
  sound := nofun
  invalid := by simp
  slots := by rfl
  records := rfl
  language := fun _ => Utf8.decode_encode ""

theorem Draft.HasTaken.concat {blocks : List Block} {draft next : Draft} {block : Block}
    (h : draft.HasTaken blocks) (hblock : draft.Takes block next) :
    next.HasTaken (blocks ++ [block]) where
  sound := by
    intro b hb
    rcases List.mem_append.mp hb with hb | hb
    · exact h.sound b hb
    · rw [List.mem_singleton.mp hb]
      exact hblock.sound
  invalid := by
    rw [hblock.invalid, h.invalid]
    constructor
    · rintro (⟨b, hb, hillegible⟩ | hillegible)
      · exact ⟨b, List.mem_append_left _ hb, hillegible⟩
      · exact ⟨block, List.mem_append_right _ (List.mem_singleton_self block), hillegible⟩
    · rintro ⟨b, hb, hillegible⟩
      rcases List.mem_append.mp hb with hb | hb
      · exact Or.inl ⟨b, hb, hillegible⟩
      · rw [List.mem_singleton.mp hb] at hillegible
        exact Or.inr hillegible
  slots := by
    rw [hblock.slots, h.slots, lastPayload_concat, apply_ite Bytes.wordPairs32]
  records := by rw [hblock.records, h.records, lastPayload_concat]
  language := by
    intro hlegible
    have hlanguage := hblock.language
    rw [lastPayload_concat]
    split
    · next hkind =>
      rw [if_pos hkind] at hlanguage
      exact hlanguage (hlegible block (List.mem_append_right _ (List.mem_singleton_self block)))
    · next hkind =>
      rw [if_neg hkind] at hlanguage
      rw [hlanguage]
      exact h.language fun b hb => hlegible b (List.mem_append_left _ hb)

theorem Draft.hasTaken_of_foldlM {blocks : List Block} :
    ∀ {draft : Draft}, blocks.foldlM Draft.absorb {} = .ok draft → draft.HasTaken blocks := by
  induction blocks using List.reverseRecOn with
  | nil =>
      intro draft h
      cases h
      exact Draft.hasTaken_nil
  | append_singleton blocks block ih =>
      intro draft h
      rw [List.foldlM_append, bind_eq_ok] at h
      obtain ⟨before, hbefore, h⟩ := h
      rw [List.foldlM_cons, bind_eq_ok] at h
      obtain ⟨next, hnext, h⟩ := h
      cases h
      have houtcome := outcome_absorb before block
      rw [hnext] at houtcome
      cases houtcome with
      | taken htakes => exact (ih hbefore).concat htakes

theorem Draft.exists_not_isSound_of_foldlM {e : Error} {blocks : List Block} :
    ∀ {draft : Draft}, blocks.foldlM Draft.absorb draft = .error e →
      (∃ block ∈ blocks, ¬ block.IsSound) ∧ e ≠ .invalidText := by
  induction blocks with
  | nil => nofun
  | cons block blocks ih =>
      intro draft h
      rw [List.foldlM_cons] at h
      rcases bind_eq_error.mp h with hblock | ⟨next, -, h⟩
      · have houtcome := outcome_absorb draft block
        rw [hblock] at houtcome
        cases houtcome with
        | refused hsound he => exact ⟨⟨block, List.mem_cons_self, hsound⟩, he⟩
      · obtain ⟨⟨b, hb, hsound⟩, he⟩ := ih h
        exact ⟨⟨b, List.mem_cons_of_mem _ hb, hsound⟩, he⟩

/-! ## Files -/

/-- Some bytes begin as every compiled catalog does, and behind that they are
a sequence of blocks, each of which can be taken apart. -/
structure IsStructured (bytes : Bytes) (blocks : List Block) : Prop where
  begins : magic <+: bytes
  sequence : BlockSequence (bytes.drop magic.length) blocks
  sound : ∀ block ∈ blocks, block.IsSound

/-- The slots in some blocks, each a hash and an offset. -/
def slotsOf (blocks : List Block) : List (UInt32 × UInt32) :=
  Bytes.wordPairs32 (lastPayload .hashes blocks)

/-- What is known of a file with some blocks. -/
structure File.Holds (file : File) (blocks : List Block) : Prop where
  slots : file.slots = slotsOf blocks
  records : file.records = lastPayload .messages blocks
  language : Utf8.decode (lastPayload .language blocks) = some file.language

theorem IsStructured.splitBlocks_eq {bytes : Bytes} {blocks : List Block}
    (h : IsStructured bytes blocks) :
    splitBlocks (bytes.drop magic.length) = (blocks, none) :=
  splitBlocks_eq_iff.mpr h.sequence

theorem IsStructured.unique {bytes : Bytes} {blocks others : List Block}
    (h : IsStructured bytes blocks) (hothers : IsStructured bytes others) : blocks = others :=
  congrArg Prod.fst (h.splitBlocks_eq.symm.trans hothers.splitBlocks_eq)

theorem IsStructured.exists_iff {bytes : Bytes} {blocks : List Block}
    (h : IsStructured bytes blocks) {p : List Block → Prop} :
    (∃ others, IsStructured bytes others ∧ p others) ↔ p blocks := by
  constructor
  · rintro ⟨others, hothers, hp⟩
    rwa [h.unique hothers]
  · exact fun hp => ⟨blocks, h, hp⟩

/-- What reading some bytes comes to: ill-formed texts are complained about
where the structure is whole. -/
inductive ParseOutcome (bytes : Bytes) : Except Error File → Prop
  | broken {e : Error} : e ≠ .invalidText → (¬ ∃ blocks, IsStructured bytes blocks) →
      ParseOutcome bytes (.error e)
  | illegible {blocks : List Block} : IsStructured bytes blocks → ¬ BlocksLegible blocks →
      ParseOutcome bytes (.error .invalidText)
  | read {blocks : List Block} {file : File} : IsStructured bytes blocks → BlocksLegible blocks →
      file.Holds blocks → ParseOutcome bytes (.ok file)

theorem outcome_parse (bytes : Bytes) : ParseOutcome bytes (File.parse bytes) := by
  by_cases hmagic : magic <+: bytes
  · rw [File.parse, if_pos (List.isPrefixOf_iff_prefix.mpr hmagic)]
    cases hsplit : splitBlocks (bytes.drop magic.length) with | mk blocks fault
    -- whatever the bytes are structured into, it is these blocks
    have hblocks : ∀ {others}, IsStructured bytes others → others = blocks ∧ fault = none := by
      intro others hothers
      obtain ⟨rfl, rfl⟩ := Prod.mk.inj (hothers.splitBlocks_eq.symm.trans hsplit)
      exact ⟨rfl, rfl⟩
    show ParseOutcome bytes (File.ofBlocks blocks fault)
    unfold File.ofBlocks
    cases hfold : blocks.foldlM Draft.absorb {} with
    | error e =>
        obtain ⟨⟨block, hblock, hsound⟩, he⟩ := Draft.exists_not_isSound_of_foldlM hfold
        refine .broken he ?_
        rintro ⟨others, hothers⟩
        obtain ⟨rfl, -⟩ := hblocks hothers
        exact hsound (hothers.sound block hblock)
    | ok draft =>
        have hdraft := Draft.hasTaken_of_foldlM hfold
        cases fault with
        | some e =>
            refine .broken ?_ ?_
            · rintro rfl
              exact splitBlocks_ne_invalidText _ (congrArg Prod.snd hsplit)
            · rintro ⟨others, hothers⟩
              cases (hblocks hothers).2
        | none =>
            have hstructured : IsStructured bytes blocks :=
              ⟨hmagic, splitBlocks_eq_iff.mp hsplit, hdraft.sound⟩
            show ParseOutcome bytes (if draft.invalid then throw .invalidText else return draft.file)
            split
            · next hinvalid =>
              obtain ⟨block, hblock, hillegible⟩ := hdraft.invalid.mp hinvalid
              exact .illegible hstructured fun hlegible => hillegible (hlegible block hblock)
            · next hinvalid =>
              have hlegible : BlocksLegible blocks := by
                intro block hblock
                by_contra hillegible
                exact hinvalid (hdraft.invalid.mpr ⟨block, hblock, hillegible⟩)
              exact .read hstructured hlegible
                ⟨hdraft.slots, hdraft.records, hdraft.language hlegible⟩
  · rw [File.parse, if_neg (mt List.isPrefixOf_iff_prefix.mp hmagic)]
    exact .broken nofun fun ⟨_, hblocks⟩ => hmagic hblocks.begins

theorem exists_holds_of_parse {bytes : Bytes} {file : File} (h : File.parse bytes = .ok file) :
    ∃ blocks, IsStructured bytes blocks ∧ file.Holds blocks := by
  have houtcome := outcome_parse bytes
  rw [h] at houtcome
  cases houtcome with
  | read hblocks _ hholds => exact ⟨_, hblocks, hholds⟩

end Compiled

end MessageCatalog
