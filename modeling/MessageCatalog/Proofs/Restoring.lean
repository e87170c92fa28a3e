/-
# `MessageCatalog.Proofs.Restoring` — what is restored of a stripped catalog

A stripped record leaves parts of its key out, and what stands for them in
the restored entry comes from the record in front of it or is empty.  So an
entry is certain only of the parts that its record was written with.  By

    a and b are neighbours, and agree up to a level
      →  both are written down to that level

these are at least the parts that the key shares with a neighbour on either
side, and nothing that is taken over from the front needs to be followed
through a run of equal hashes: a part that a record has is never replaced.
-/
import MessageCatalog.Proofs.Lookup
import MessageCatalog.Proofs.RoundTrip
import MessageCatalog.Proofs.TextFaults

namespace MessageCatalog.Compiled

/-! ## Levels of neighbours -/

/-- Neighbours are both written down to what they share. -/
theorem isChain_strippedLevels (records : Records) :
    ∀ previous, (records.zip (strippedLevels previous (records.map Prod.fst))).IsChain fun a b =>
      (a.1.1.shared b.1.1).rank ≤ a.2.rank ∧ (a.1.1.shared b.1.1).rank ≤ b.2.rank := by
  induction records with
  | nil => exact fun _ => .nil
  | cons record rest ih =>
      intro previous
      cases rest with
      | nil => exact .singleton _
      | cons following rest =>
          have hrecord : (record.1.shared following.1).rank
              ≤ (previous.deeper (record.1.shared following.1).next).rank := by
            rw [Level.rank_deeper]
            exact Nat.le_trans (Level.rank_le_next _) (Nat.le_max_right _ _)
          -- the key behind is written with what it shares with the one in front
          have hfollowing (level : Level) : (record.1.shared following.1).rank
              ≤ ((record.1.shared following.1).deeper level).rank := by
            rw [Level.rank_deeper]
            exact Nat.le_max_left _ _
          have hrest := ih (record.1.shared following.1)
          -- the level of the last key is told by another equation than that of the others
          cases rest <;> exact .cons_cons ⟨hrecord, hfollowing _⟩ hrest

theorem rel_of_isChain {α : Type} {R : α → α → Prop} {items : List α} (h : items.IsChain R)
    {i : Nat} {a b : α} (ha : items[i]? = some a) (hb : items[i + 1]? = some b) : R a b := by
  obtain ⟨_, rfl⟩ := List.getElem?_eq_some_iff.mp ha
  obtain ⟨hlast, rfl⟩ := List.getElem?_eq_some_iff.mp hb
  exact List.isChain_iff_getElem.mp h i hlast

/-- A record in a stripped catalog is written down to every level up to which
its key agrees with a neighbour on either side. -/
theorem exists_level_of_neighbour {records : Records} {i j : Nat} (hij : j = i + 1 ∨ i = j + 1)
    {record near : Key × List String} (hrecord : records[i]? = some record)
    (hnear : records[j]? = some near) :
    ∃ level, (levelled .stripped records)[i]? = some (record, level)
      ∧ ∀ part, record.1.Agree near.1 part → part.rank ≤ level.rank := by
  obtain ⟨level, hlevel⟩ := exists_getElem?_levelled .stripped hrecord
  obtain ⟨nearLevel, hnearLevel⟩ := exists_getElem?_levelled .stripped hnear
  have hchain := isChain_strippedLevels records .nothing
  refine ⟨level, hlevel, ?_⟩
  intro part hagree
  rcases hij with rfl | rfl
  · exact Nat.le_trans (Key.agree_iff.mp hagree) (rel_of_isChain hchain hlevel hnearLevel).1
  · exact Nat.le_trans (Key.agree_iff.mp hagree.symm) (rel_of_isChain hchain hnearLevel hlevel).2

/-! ## Records -/

theorem completedFrom_empty (record : Record) : record.completedFrom {} = record := by
  simp [Record.completedFrom]

theorem isLegible_writtenRecord (key : Key) (translations : List String) (level : Level) :
    (writtenRecord key translations level).IsLegible := by
  have htext (part : Level) (text : String) : ∀ t ∈ if part.rank ≤ level.rank then
      some (Utf8.encode text) else none, (Utf8.decode t).isSome := by
    intro t ht
    split at ht
    · obtain rfl := Option.some.inj ht
      rw [Utf8.decode_encode]
      rfl
    · cases ht
  refine ⟨?_, htext _ _, htext _ _, htext _ _⟩
  intro reading hreading
  obtain ⟨text, -, rfl⟩ := List.mem_map.mp hreading
  rfl

/-- A record that was written at a level and may have been completed from
another one since. -/
def IsCompletionOf (record : Record) (item : (Key × List String) × Level) : Prop :=
  ∃ earlier, record = (writtenRecord item.1.1 item.1.2 item.2).completedFrom earlier

theorem forall₂_isCompletionOf {bytes : Bytes} {items : List ((Key × List String) × Level)}
    {slots : List (UInt32 × UInt32)} (h : List.Forall₂ (LeadsTo bytes) items slots) :
    ∀ {previous : Option (UInt32 × Record)} {records : List Record},
      readSlots bytes previous slots = .ok records → List.Forall₂ IsCompletionOf records items := by
  induction h with
  | nil =>
      intro previous records hread
      cases hread
      exact .nil
  | cons hitem _ ih =>
      intro previous records hread
      obtain ⟨record, completed, others, hrecord, hcompleted, hothers, rfl⟩ :=
        readSlots_cons_eq_ok hread
      rw [hitem.2] at hrecord
      cases hrecord
      refine .cons ?_ (ih hothers)
      -- what the record in front was completed with itself does not matter
      rcases hcompleted with rfl | ⟨p, -, rfl⟩
      · exact ⟨{}, (completedFrom_empty _).symm⟩
      · exact ⟨p.2, rfl⟩

theorem exists_leadsTo {bytes : Bytes} {items : List ((Key × List String) × Level)}
    {slots : List (UInt32 × UInt32)} (h : List.Forall₂ (LeadsTo bytes) items slots) :
    ∀ slot ∈ slots, ∃ item, LeadsTo bytes item slot := by
  induction h with
  | nil => exact List.forall_mem_nil _
  | cons hitem _ ih => exact List.forall_mem_cons.mpr ⟨⟨_, hitem⟩, ih⟩

/-! ## Entries -/

/-- An entry has the translations of a record and, of its key, the parts that
the record was written with. -/
structure Keeps (entry : Entry) (item : (Key × List String) × Level) : Prop where
  translations : entry.translations = item.1.2
  context : Level.context.rank ≤ item.2.rank → entry.context = item.1.1.context
  source : Level.source.rank ≤ item.2.rank → entry.source = item.1.1.source
  comment : Level.comment.rank ≤ item.2.rank → entry.comment = item.1.1.comment

/-- A part that a record was written with is read from it. -/
theorem eq_of_decode_part {part level : Level} (hlevel : part.rank ≤ level.rank)
    {earlier : Option Bytes} {text restored : String}
    (h : Utf8.decode (((if part.rank ≤ level.rank then some (Utf8.encode text) else none).or
      earlier).getD []) = some restored) : restored = text := by
  rw [if_pos hlevel] at h
  exact Option.some.inj (h.symm.trans (Utf8.decode_encode text))

theorem keeps_of_entry {record : Record} {item : (Key × List String) × Level}
    (hrecord : IsCompletionOf record item) {singleForm : Bool} {entry : Entry}
    (h : record.toEntry? singleForm = some entry) : Keeps entry item := by
  obtain ⟨earlier, rfl⟩ := hrecord
  simp only [Record.toEntry?, Option.bind_eq_bind, Option.bind_eq_some_iff] at h
  obtain ⟨source, hsource, context, hcontext, comment, hcomment, h⟩ := h
  split at h
  · cases h
    exact {
      translations := Utf16.map_text_readings item.1.2
      context := fun hlevel => eq_of_decode_part hlevel hcontext
      source := fun hlevel => eq_of_decode_part hlevel hsource
      comment := fun hlevel => eq_of_decode_part hlevel hcomment }
  · cases h

theorem forall₂_keeps {records : List Record} {items : List ((Key × List String) × Level)}
    (h : List.Forall₂ IsCompletionOf records items) {singleForm : Bool} :
    ∀ {entries : List Entry}, records.mapM (Record.toEntry? singleForm) = some entries →
      List.Forall₂ Keeps entries items := by
  induction h with
  | nil =>
      intro entries hentries
      cases hentries
      exact .nil
  | cons hrecord _ ih =>
      intro entries hentries
      simp only [List.mapM_cons, Option.bind_eq_bind, Option.bind_eq_some_iff] at hentries
      obtain ⟨entry, hentry, others, hothers, heq⟩ := hentries
      cases heq
      exact .cons (keeps_of_entry hrecord hentry) (ih hothers)

/-! ## Catalogs -/

/-- A compiled catalog is restored with an entry for every record, whatever
was left out of the records. -/
theorem IsCompiled.exists_toCatalog {options : Options} {catalog : Catalog} {file : File}
    (h : IsCompiled options catalog file) :
    ∃ restored, file.toCatalog = .ok restored
      ∧ restored.language = catalog.language
      ∧ restored.dependencies = catalog.dependencies
      ∧ List.Forall₂ Keeps restored.entries
          (levelled options.saveMode (sortedRecords options catalog)) := by
  have hleads := exists_leadsTo h.slots
  have hreadable : SlotsReadable file.records file.slots := by
    intro slot hslot
    obtain ⟨item, hitem⟩ := hleads slot hslot
    exact ⟨_, hitem.2⟩
  have hlegible : SlotsLegible file.records file.slots := by
    intro slot hslot record hrecord
    obtain ⟨item, hitem⟩ := hleads slot hslot
    rw [hitem.2] at hrecord
    cases hrecord
    exact isLegible_writtenRecord _ _ _
  cases hread : readSlots file.records none file.slots with
  | error e => exact absurd hreadable (not_readable_of_readSlots hread).1
  | ok records =>
      obtain ⟨entries, hentries⟩ := Option.isSome_iff_exists.mp
        ((isSome_entries_iff hread (Plural.formCount? file.language == some 1)).mpr hlegible)
      refine ⟨{ entries, language := file.language, dependencies := file.dependencies }, ?_,
        h.language, h.dependencies, forall₂_keeps (forall₂_isCompletionOf h.slots hread) hentries⟩
      refine bind_eq_ok.mpr ⟨records, hread, ?_⟩
      rw [hentries]
      rfl

theorem map_translations_of_keeps {entries : List Entry}
    {items : List ((Key × List String) × Level)} (h : List.Forall₂ Keeps entries items) :
    entries.map Entry.translations = items.map fun item => item.1.2 := by
  induction h with
  | nil => rfl
  | cons hentry _ ih => rw [List.map_cons, List.map_cons, hentry.translations, ih]

theorem exists_keeps {entries : List Entry} {items : List ((Key × List String) × Level)}
    (h : List.Forall₂ Keeps entries items) {i : Nat} {item : (Key × List String) × Level}
    (hitem : items[i]? = some item) : ∃ entry, entries[i]? = some entry ∧ Keeps entry item := by
  obtain ⟨hi, rfl⟩ := List.getElem?_eq_some_iff.mp hitem
  have hentries : i < entries.length := h.length_eq.symm ▸ hi
  exact ⟨entries[i], List.getElem?_eq_getElem hentries, h.get hentries hi⟩

/-- A catalog that compiles in both modes is restored from both, with an entry
for every record in the order of their keys, and with the same translations.
Restored from the stripped one, an entry still has the context of its key
where a neighbouring key has the same, and then the source text too if that
is also the same. -/
theorem decompile_compile_both {options : Options} {catalog : Catalog} {full stripped : Compilation}
    (hfull : (compile { options with saveMode := .everything } catalog).2 = .ok full)
    (hstripped : (compile { options with saveMode := .stripped } catalog).2 = .ok stripped) :
    ∃ whole bare, decompile full.bytes = .ok whole ∧ decompile stripped.bytes = .ok bare
      ∧ whole.entries.map fullKey = (sortedRecords options catalog).map Prod.fst
      ∧ whole.entries.map Entry.translations = (sortedRecords options catalog).map Prod.snd
      ∧ bare.entries.map Entry.translations = whole.entries.map Entry.translations
      ∧ ∀ i j record near, (j = i + 1 ∨ i = j + 1) →
          (sortedRecords options catalog)[i]? = some record →
          (sortedRecords options catalog)[j]? = some near →
          record.1.Agree near.1 .context →
            ∃ entry, bare.entries[i]? = some entry ∧ entry.context = record.1.context
              ∧ (record.1.Agree near.1 .source → entry.source = record.1.source) := by
  obtain ⟨fullFile, hparseFull, hfullFile⟩ := parse_compile hfull
  obtain ⟨bareFile, hparseBare, hbareFile⟩ := parse_compile hstripped
  have hwhole := hfullFile.toCatalog_everything rfl
  obtain ⟨bare, hbare, -, -, hkeeps⟩ := hbareFile.exists_toCatalog
  rw [sortedRecords_saveMode] at hwhole hkeeps
  have htranslations : bare.entries.map Entry.translations
      = (sortedRecords options catalog).map Prod.snd :=
    (map_translations_of_keeps hkeeps).trans (map_levelled Prod.snd _ _)
  have hwholeTranslations : (restoredCatalog catalog (sortedRecords options catalog)).entries.map
      Entry.translations = (sortedRecords options catalog).map Prod.snd := List.map_map
  refine ⟨_, bare, bind_eq_ok.mpr ⟨fullFile, hparseFull, hwhole⟩,
    bind_eq_ok.mpr ⟨bareFile, hparseBare, hbare⟩, List.map_map, hwholeTranslations,
    htranslations.trans hwholeTranslations.symm, ?_⟩
  intro i j record near hij hrecord hnear hcontext
  obtain ⟨level, hlevel, hreaches⟩ := exists_level_of_neighbour hij hrecord hnear
  obtain ⟨entry, hentry, hkept⟩ := exists_keeps hkeeps hlevel
  refine ⟨entry, hentry, hkept.context (hreaches .context hcontext), ?_⟩
  intro hsource
  exact hkept.source (hreaches .source hsource)

/-- A catalog whose records all have one hash.  Between the first two only
the comments differ, and the third has another context. -/
def anagrams : Catalog where
  entries := [
    { context := "C", source := "s", comment := "AQ", translations := ["x"], state := .finished },
    { context := "C", source := "s", comment := "BA", translations := ["y"], state := .finished },
    { context := "D", source := "sAQ", translations := ["z"], state := .finished }]

theorem sortedRecords_anagrams : sortedRecords {} anagrams
    = [(⟨"C", "s", "AQ"⟩, ["x"]), (⟨"C", "s", "BA"⟩, ["y"]), (⟨"D", "sAQ", ""⟩, ["z"])] :=
  sortedRecords_of_perm (by decide) (by decide)

theorem exists_compile_anagrams (mode : SaveMode) :
    ∃ compilation, (compile { saveMode := mode } anagrams).2 = .ok compilation := by
  refine exists_compile _ anagrams ?_ (by decide) (by decide)
  show ((collect {} anagrams).map recordSize).sum < 4294967291
  decide

theorem decompile_compile_both_anagrams :
    ∃ full stripped whole bare, (compile { saveMode := .everything } anagrams).2 = .ok full
      ∧ (compile { saveMode := .stripped } anagrams).2 = .ok stripped
      ∧ decompile full.bytes = .ok whole ∧ decompile stripped.bytes = .ok bare
      ∧ bare.entries.map Entry.translations = [["x"], ["y"], ["z"]]
      ∧ ∃ entry, bare.entries[1]? = some entry ∧ entry.context = "C" ∧ entry.source = "s" := by
  obtain ⟨full, hfull⟩ := exists_compile_anagrams .everything
  obtain ⟨stripped, hstripped⟩ := exists_compile_anagrams .stripped
  obtain ⟨whole, bare, hwhole, hbare, -, htexts, htranslations, hparts⟩ :=
    @decompile_compile_both {} anagrams full stripped hfull hstripped
  rw [sortedRecords_anagrams] at htexts hparts
  obtain ⟨entry, hentry, hcontext, hsource⟩ := hparts 1 0 _ _ (.inr rfl) rfl rfl (by decide)
  exact ⟨full, stripped, whole, bare, hfull, hstripped, hwhole, hbare,
    htranslations.trans htexts, entry, hentry, hcontext, hsource (by decide)⟩

end MessageCatalog.Compiled
