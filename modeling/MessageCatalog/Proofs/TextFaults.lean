/-
# `MessageCatalog.Proofs.TextFaults` — when ill-formed text is complained about

Restoring a catalog reads the blocks and then the records.  Each of the two
passes sees broken structure at once and ill-formed texts at its end:

    blocks    broken   → the fault     a text ill formed → `invalidText`
    records   broken   → the fault     a text ill formed → `invalidText`

So within a pass a broken structure comes first, wherever it stands.  Between
the passes it does not: a text in a block that is ill formed is complained
about before any record is read (`decompile_of_not_legible`).
-/
import MessageCatalog.Compiled.Decode
import MessageCatalog.Proofs.BlockReading

namespace MessageCatalog.Compiled

/-! ## Readers that do not look at texts -/

theorem countedField_ne_invalidText (offset : Nat) (make : Bytes → Field) (bytes : Bytes) :
    countedField offset make bytes ≠ .error .invalidText := by
  unfold countedField
  split <;> nofun

theorem readStep_ne_invalidText (offset : Nat) (bytes : Bytes) :
    readStep offset bytes ≠ .error .invalidText := by
  intro h
  cases bytes with
  | nil => cases h
  | cons tag rest =>
      rw [readStep] at h
      cases hkind : FieldTag.ofByte? tag with
      | none =>
          rw [hkind] at h
          cases h
      | some kind =>
          rw [hkind] at h
          cases kind with
          | stop => cases h
          | translation =>
              cases htext : readText16 offset rest with
              | error e =>
                  simp only [htext] at h
                  cases h
                  exact readText16_ne_invalidText _ _ htext
              | ok text =>
                  simp only [htext] at h
                  cases h
          | source | context | comment | source16 | context16 =>
              exact countedField_ne_invalidText _ _ _ h
          | obsolete1 | obsolete2 =>
              cases htake : Bytes.take? 4 rest with
              | none =>
                  simp only [htake] at h
                  cases h
              | some taken =>
                  simp only [htake] at h
                  cases h

theorem readFields_ne_invalidText (offset : Nat) (bytes : Bytes) :
    readFields offset bytes ≠ .error .invalidText := by
  fun_induction readFields offset bytes with
  | case1 offset bytes e hstep =>
      intro h
      rw [Except.error.inj h] at hstep
      exact readStep_ne_invalidText _ _ hstep
  | case2 => nofun
  | case3 offset bytes field size rest hstep e hfields ih =>
      intro h
      rw [Except.error.inj h] at hfields
      exact ih hfields
  | case4 => nofun

theorem readFields_of_error {offset : Nat} {bytes : Bytes} {e : Error}
    (h : readStep offset bytes = .error e) : readFields offset bytes = .error e := by
  rw [readFields]
  split
  · next hstep =>
    rw [h] at hstep
    rw [Except.error.inj hstep]
  · next hstep =>
    rw [h] at hstep
    cases hstep
  · next hstep =>
    rw [h] at hstep
    cases hstep

theorem Record.read_ne_invalidText (records : Bytes) (offset : Nat) :
    Record.read records offset ≠ .error .invalidText := by
  unfold Record.read
  split
  · nofun
  · cases hfields : readFields offset (records.drop offset) with
    | error e =>
        intro h
        cases h
        exact readFields_ne_invalidText _ _ hfields
    | ok fields => nofun

/-! ## Texts of records -/

/-- No text of a record is ill formed. -/
structure Record.IsLegible (record : Record) : Prop where
  translations : ∀ reading ∈ record.translations, reading.valid = true
  context : ∀ text ∈ record.context, (Utf8.decode text).isSome
  source : ∀ text ∈ record.source, (Utf8.decode text).isSome
  comment : ∀ text ∈ record.comment, (Utf8.decode text).isSome

/-- A text that is left out is read as the empty one. -/
theorem isSome_decode_getD {text : Option Bytes} :
    (Utf8.decode (text.getD [])).isSome ↔ ∀ t ∈ text, (Utf8.decode t).isSome := by
  cases text with
  | none => simp [show Utf8.decode [] = some "" from Utf8.decode_encode ""]
  | some t => simp

theorem Record.isSome_toEntry?_iff {singleForm : Bool} {record : Record} :
    (record.toEntry? singleForm).isSome ↔ record.IsLegible := by
  have hvalid : record.isValid = true ↔ ∀ reading ∈ record.translations, reading.valid = true :=
    List.all_eq_true
  constructor
  · intro h
    obtain ⟨entry, hentry⟩ := Option.isSome_iff_exists.mp h
    simp only [Record.toEntry?, Option.bind_eq_bind, Option.bind_eq_some_iff] at hentry
    obtain ⟨source, hsource, context, hcontext, comment, hcomment, hentry⟩ := hentry
    refine ⟨?_, ?_, ?_, ?_⟩
    · apply hvalid.mp
      by_contra hinvalid
      rw [if_neg hinvalid] at hentry
      cases hentry
    · exact isSome_decode_getD.mp (Option.isSome_of_eq_some hcontext)
    · exact isSome_decode_getD.mp (Option.isSome_of_eq_some hsource)
    · exact isSome_decode_getD.mp (Option.isSome_of_eq_some hcomment)
  · intro h
    obtain ⟨source, hsource⟩ := Option.isSome_iff_exists.mp (isSome_decode_getD.mpr h.source)
    obtain ⟨context, hcontext⟩ := Option.isSome_iff_exists.mp (isSome_decode_getD.mpr h.context)
    obtain ⟨comment, hcomment⟩ := Option.isSome_iff_exists.mp (isSome_decode_getD.mpr h.comment)
    simp [Record.toEntry?, hsource, hcontext, hcomment, hvalid.mpr h.translations]

/-- A part that is taken over is legible if it was in the record that it is
taken from. -/
theorem Record.isLegible_completedFrom {record earlier : Record} (h : earlier.IsLegible) :
    (record.completedFrom earlier).IsLegible ↔ record.IsLegible := by
  have hpart : ∀ {part other : Option Bytes}, (∀ text ∈ other, (Utf8.decode text).isSome) →
      ((∀ text ∈ part.or other, (Utf8.decode text).isSome)
        ↔ ∀ text ∈ part, (Utf8.decode text).isSome) := by
    intro part other hother
    cases part with
    | none => simpa using hother
    | some text => simp
  constructor
  · intro hall
    exact ⟨hall.translations, (hpart h.context).mp hall.context, (hpart h.source).mp hall.source,
      (hpart h.comment).mp hall.comment⟩
  · intro hall
    exact ⟨hall.translations, (hpart h.context).mpr hall.context,
      (hpart h.source).mpr hall.source, (hpart h.comment).mpr hall.comment⟩

/-! ## Records of slots -/

/-- Every slot leads to a record that can be read to its end. -/
def SlotsReadable (records : Bytes) (slots : List (UInt32 × UInt32)) : Prop :=
  ∀ slot ∈ slots, ∃ record, Record.read records slot.2.toNat = .ok record

/-- No slot leads to a record with an ill-formed text. -/
def SlotsLegible (records : Bytes) (slots : List (UInt32 × UInt32)) : Prop :=
  ∀ slot ∈ slots, ∀ record, Record.read records slot.2.toNat = .ok record → record.IsLegible

theorem readSlots_cons_eq_ok {records : Bytes} {previous : Option (UInt32 × Record)}
    {slot : UInt32 × UInt32} {slots : List (UInt32 × UInt32)} {result : List Record}
    (h : readSlots records previous (slot :: slots) = .ok result) :
    ∃ record completed others, Record.read records slot.2.toNat = .ok record
      ∧ (completed = record ∨ ∃ p ∈ previous, completed = record.completedFrom p.2)
      ∧ readSlots records (some (slot.1, completed)) slots = .ok others
      ∧ result = completed :: others := by
  obtain ⟨hash, offset⟩ := slot
  rw [readSlots] at h
  obtain ⟨record, hrecord, h⟩ := bind_eq_ok.mp h
  obtain ⟨others, hothers, h⟩ := bind_eq_ok.mp h
  refine ⟨record, _, others, hrecord, ?_, hothers, (pure_eq_ok.mp h).symm⟩
  cases previous with
  | none => exact Or.inl rfl
  | some p =>
      by_cases hhash : p.1 = hash
      · exact Or.inr ⟨p, rfl, if_pos hhash⟩
      · exact Or.inl (if_neg hhash)

theorem readable_of_readSlots {records : Bytes} {slots : List (UInt32 × UInt32)} :
    ∀ {previous : Option (UInt32 × Record)} {result : List Record},
      readSlots records previous slots = .ok result → SlotsReadable records slots := by
  induction slots with
  | nil => nofun
  | cons slot slots ih =>
      intro previous result h
      obtain ⟨record, completed, others, hrecord, -, hothers, -⟩ := readSlots_cons_eq_ok h
      exact List.forall_mem_cons.mpr ⟨⟨record, hrecord⟩, ih hothers⟩

/-- The records of some slots are legible before what they left out is taken
over if and only if they are so afterwards. -/
theorem legible_readSlots_iff {records : Bytes} {slots : List (UInt32 × UInt32)} :
    ∀ {previous : Option (UInt32 × Record)} {result : List Record},
      readSlots records previous slots = .ok result → (∀ p ∈ previous, p.2.IsLegible) →
        ((∀ record ∈ result, record.IsLegible) ↔ SlotsLegible records slots) := by
  induction slots with
  | nil =>
      intro previous result h _
      cases h
      simp [SlotsLegible]
  | cons slot slots ih =>
      intro previous result h hprevious
      obtain ⟨record, completed, others, hrecord, hcompleted, hothers, rfl⟩ :=
        readSlots_cons_eq_ok h
      have hlegible : completed.IsLegible ↔ record.IsLegible := by
        rcases hcompleted with rfl | ⟨p, hp, rfl⟩
        · rfl
        · exact Record.isLegible_completedFrom (hprevious p hp)
      unfold SlotsLegible at ih ⊢
      simp only [List.forall_mem_cons, hrecord, Except.ok.injEq, forall_eq', hlegible]
      refine and_congr_right fun hfirst => ih hothers ?_
      rintro p hp
      obtain rfl := Option.some.inj hp
      exact hlegible.mpr hfirst

theorem not_readable_of_readSlots {records : Bytes} {e : Error} {slots : List (UInt32 × UInt32)} :
    ∀ {previous : Option (UInt32 × Record)}, readSlots records previous slots = .error e →
      ¬ SlotsReadable records slots ∧ e ≠ .invalidText := by
  induction slots with
  | nil => nofun
  | cons slot slots ih =>
      intro previous h
      rw [readSlots] at h
      rcases bind_eq_error.mp h with hrecord | ⟨record, hrecord, h⟩
      · refine ⟨?_, ?_⟩
        · intro hreadable
          obtain ⟨record, hread⟩ := hreadable slot List.mem_cons_self
          rw [hread] at hrecord
          cases hrecord
        · rintro rfl
          exact Record.read_ne_invalidText _ _ hrecord
      · rcases bind_eq_error.mp h with hothers | ⟨_, _, h⟩
        · obtain ⟨hreadable, he⟩ := ih hothers
          exact ⟨fun h => hreadable fun s hs => h s (List.mem_cons_of_mem _ hs), he⟩
        · cases h

/-! ## Catalogs -/

theorem isSome_mapM_iff {α β : Type} {f : α → Option β} {items : List α} :
    (items.mapM f).isSome ↔ ∀ item ∈ items, (f item).isSome := by
  induction items with
  | nil => simp
  | cons item items ih =>
      rw [List.mapM_cons, List.forall_mem_cons, ← ih]
      cases f item with
      | none => simp
      | some first =>
          cases items.mapM f with
          | none => simp
          | some others => simp

/-- Every slot in some blocks leads to a record that can be read. -/
def RecordsReadable (blocks : List Block) : Prop :=
  SlotsReadable (lastPayload .messages blocks) (slotsOf blocks)

/-- No slot in some blocks leads to a record with an ill-formed text. -/
def RecordsLegible (blocks : List Block) : Prop :=
  SlotsLegible (lastPayload .messages blocks) (slotsOf blocks)

/-- What restoring a catalog from some bytes comes to.  The texts in the
blocks are looked at before any record is read. -/
inductive DecompileOutcome (bytes : Bytes) : Except Error Catalog → Prop
  | broken {e : Error} : e ≠ .invalidText → (¬ ∃ blocks, IsStructured bytes blocks) →
      DecompileOutcome bytes (.error e)
  | illegibleBlock {blocks : List Block} : IsStructured bytes blocks → ¬ BlocksLegible blocks →
      DecompileOutcome bytes (.error .invalidText)
  | unreadable {blocks : List Block} {e : Error} : e ≠ .invalidText → IsStructured bytes blocks →
      BlocksLegible blocks → ¬ RecordsReadable blocks → DecompileOutcome bytes (.error e)
  | illegibleRecord {blocks : List Block} : IsStructured bytes blocks → BlocksLegible blocks →
      RecordsReadable blocks → ¬ RecordsLegible blocks → DecompileOutcome bytes (.error .invalidText)
  | restored {blocks : List Block} {catalog : Catalog} : IsStructured bytes blocks →
      BlocksLegible blocks → RecordsReadable blocks → RecordsLegible blocks →
      DecompileOutcome bytes (.ok catalog)

/-- The records have entries, all of them, if they are legible. -/
theorem isSome_entries_iff {records : Bytes} {slots : List (UInt32 × UInt32)}
    {result : List Record} (h : readSlots records none slots = .ok result) (singleForm : Bool) :
    (result.mapM (Record.toEntry? singleForm)).isSome ↔ SlotsLegible records slots := by
  rw [isSome_mapM_iff, ← legible_readSlots_iff h nofun]
  exact forall₂_congr fun _ _ => Record.isSome_toEntry?_iff

theorem outcome_decompile (bytes : Bytes) : DecompileOutcome bytes (decompile bytes) := by
  have hfile := outcome_parse bytes
  unfold decompile
  generalize File.parse bytes = parsed at hfile ⊢
  cases hfile with
  | broken he hblocks => exact .broken he hblocks
  | illegible hblocks hillegible => exact .illegibleBlock hblocks hillegible
  | @read blocks file hblocks hlegible hholds =>
      show DecompileOutcome bytes file.toCatalog
      unfold File.toCatalog
      rw [hholds.slots, hholds.records]
      cases hread : readSlots (lastPayload .messages blocks) none (slotsOf blocks) with
      | error e =>
          obtain ⟨hreadable, he⟩ := not_readable_of_readSlots hread
          exact .unreadable he hblocks hlegible hreadable
      | ok records =>
          have hreadable := readable_of_readSlots hread
          have hentries := isSome_entries_iff hread (Plural.formCount? file.language == some 1)
          simp only [bind, Except.bind]
          cases hmap : records.mapM (Record.toEntry? (Plural.formCount? file.language == some 1)) with
          | none =>
              refine .illegibleRecord hblocks hlegible hreadable fun hall => ?_
              rw [hmap] at hentries
              cases hentries.mpr hall
          | some entries =>
              rw [hmap] at hentries
              exact .restored hblocks hlegible hreadable (hentries.mp rfl)

/-- Whatever the records are, an ill-formed text in a block is complained
about. -/
theorem decompile_of_not_legible {bytes : Bytes} {blocks : List Block}
    (hblocks : IsStructured bytes blocks) (hillegible : ¬ BlocksLegible blocks) :
    decompile bytes = .error .invalidText := by
  have houtcome := outcome_decompile bytes
  generalize decompile bytes = result at houtcome ⊢
  cases houtcome with
  | broken _ hnone => exact absurd ⟨blocks, hblocks⟩ hnone
  | illegibleBlock => rfl
  | unreadable _ hothers hlegible =>
      rw [hblocks.unique hothers] at hillegible
      exact absurd hlegible hillegible
  | illegibleRecord => rfl
  | restored hothers hlegible =>
      rw [hblocks.unique hothers] at hillegible
      exact absurd hlegible hillegible

/-- Some bytes are complained about as ill-formed text if and only if they
are a sequence of blocks that can be taken apart, and either a text in a
block is ill formed, or all records can be read and a text in one of them is
ill formed.  They are complained about in another way if and only if they are
no such sequence, or no text in a block is ill formed but some record cannot
be read. -/
theorem decompile_error_iff (bytes : Bytes) :
    (decompile bytes = .error .invalidText ↔
        ∃ blocks, IsStructured bytes blocks
          ∧ (¬ BlocksLegible blocks ∨ RecordsReadable blocks ∧ ¬ RecordsLegible blocks))
      ∧ ((∃ e, e ≠ .invalidText ∧ decompile bytes = .error e) ↔
        (¬ ∃ blocks, IsStructured bytes blocks)
          ∨ ∃ blocks, IsStructured bytes blocks ∧ BlocksLegible blocks
            ∧ ¬ RecordsReadable blocks) := by
  have houtcome := outcome_decompile bytes
  generalize decompile bytes = result at houtcome ⊢
  cases houtcome with
  | broken he hblocks =>
      simp only [not_exists] at hblocks
      simp [he, hblocks]
  | illegibleBlock hblocks hillegible =>
      have hstructured : ∃ blocks, IsStructured bytes blocks := ⟨_, hblocks⟩
      rw [hblocks.exists_iff, hblocks.exists_iff]
      simp [hstructured, hillegible]
  | unreadable he hblocks hlegible hreadable =>
      rw [hblocks.exists_iff, hblocks.exists_iff]
      simp [he, hlegible, hreadable]
  | illegibleRecord hblocks hlegible hreadable hillegible =>
      have hstructured : ∃ blocks, IsStructured bytes blocks := ⟨_, hblocks⟩
      rw [hblocks.exists_iff, hblocks.exists_iff]
      simp [hstructured, hlegible, hreadable, hillegible]
  | restored hblocks hlegible hreadable hall =>
      have hstructured : ∃ blocks, IsStructured bytes blocks := ⟨_, hblocks⟩
      rw [hblocks.exists_iff, hblocks.exists_iff]
      simp [hstructured, hlegible, hreadable, hall]

/-- A language that is no text, and a slot that leads to a record with a tag
that no field has. -/
def illegibleAndBroken : Bytes :=
  magic ++ [0xA7, 0, 0, 0, 1, 0xFF] ++ [0x42, 0, 0, 0, 8, 0, 0, 0, 1, 0, 0, 0, 0]
    ++ [0x69, 0, 0, 0, 1, 0x63]

theorem isStructured_illegibleAndBroken :
    IsStructured illegibleAndBroken
      [⟨0xA7, [0xFF]⟩, ⟨0x42, [0, 0, 0, 1, 0, 0, 0, 0]⟩, ⟨0x69, [0x63]⟩] where
  begins := by decide
  sequence := by
    show BlockSequence ([0xA7, 0, 0, 0, 1, 0xFF] ++ ([0x42, 0, 0, 0, 8, 0, 0, 0, 1, 0, 0, 0, 0]
      ++ ([0x69, 0, 0, 0, 1, 0x63] ++ []))) _
    exact .block (by decide) (by decide) rfl (.block (by decide) (by decide) rfl
      (.block (by decide) (by decide) rfl (.short (by decide))))
  sound := by
    simp only [List.forall_mem_cons]
    exact ⟨trivial, trivial, trivial, nofun⟩

/-- The language is complained about, and the record, which cannot be read,
is not. -/
theorem decompile_illegibleAndBroken :
    decompile illegibleAndBroken = .error .invalidText
      ∧ ∃ blocks, IsStructured illegibleAndBroken blocks
        ∧ ∃ slot ∈ slotsOf blocks, Record.read (lastPayload .messages blocks) slot.2.toNat
            = .error (.unknownTag 0x63 0) := by
  refine ⟨decompile_of_not_legible isStructured_illegibleAndBroken ?_,
    _, isStructured_illegibleAndBroken, (1, 0), by decide, ?_⟩
  · intro hlegible
    obtain ⟨language, hlanguage⟩ := hlegible ⟨0xA7, [0xFF]⟩ (by decide)
    have hnone : Utf8.decode [0xFF] = none := by decide
    rw [hnone] at hlanguage
    cases hlanguage
  · have hstep : readStep 0 [0x63] = .error (.unknownTag 0x63 0) := rfl
    show (readFields 0 [0x63]).map Record.ofFields = _
    rw [readFields_of_error hstep]
    rfl

end MessageCatalog.Compiled
