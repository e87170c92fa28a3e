/-
# `MessageCatalog.Proofs.Recompiling` — compiling a catalog that was restored

Whatever the options were that a catalog was compiled under, a restored
entry stands for one record: its contents are the key and its translations
those that were written.  By default it comes to the same record again,

    it is finished                  it is stored, and nothing is filled in
    its contents are the full key   no other entry claims that key

so the records of the restored catalog are those it was restored from.  All
that is written follows from the records, the language and the dependencies,
and these are restored too.
-/
import MessageCatalog.Proofs.RoundTrip

namespace MessageCatalog.Compiled

/-! ## Records of different entries -/

theorem Records.add_of_new {records : Records} {key : Key} {translations : List String}
    (h : key ∉ records.map Prod.fst) :
    records.add key translations = (key, translations) :: records := by
  have hnew : ¬ records.has key = true := fun htaken => h (Records.has_iff.mp htaken)
  rw [Records.add, if_neg hnew]

section

variable {options : Options} {catalog : Catalog}

theorem foldl_storeEntry_of_nodup (hsqueeze : options.squeezeComments = false)
    {entries : List Entry} (h : (entries.map (recordKey options)).Nodup) :
    ∀ records : Records, (∀ entry ∈ entries, recordKey options entry ∉ records.map Prod.fst) →
      entries.foldl (storeEntry options catalog) records
        = (entries.map fun entry => (recordKey options entry, options.translationsOf entry)).reverse
            ++ records := by
  induction entries with
  | nil =>
      intro records _
      rfl
  | cons entry entries ih =>
      intro records hnew
      rw [List.map_cons, List.nodup_cons] at h
      rw [List.foldl_cons, storeEntry_eq, claimedKey_eq_recordKey hsqueeze,
        Records.add_of_new (hnew entry List.mem_cons_self), ih h.2, List.map_cons,
        List.reverse_cons, List.append_assoc]
      · rfl
      · intro other hother hmem
        rcases List.mem_cons.mp hmem with heq | hknown
        · exact h.1 (List.mem_map.mpr ⟨other, hother, heq⟩)
        · exact hnew other (List.mem_cons_of_mem _ hother) hknown

/-- Entries with different keys have a record each. -/
theorem collect_of_nodup (hsqueeze : options.squeezeComments = false)
    (h : ((storedEntries options catalog).map (recordKey options)).Nodup) :
    collect options catalog
      = ((storedEntries options catalog).map fun entry =>
          (recordKey options entry, options.translationsOf entry)).reverse := by
  rw [collect, foldl_storeEntry_of_nodup hsqueeze h, List.append_nil]
  intro entry _
  exact List.not_mem_nil

end

/-! ## Restored catalogs -/

theorem storedEntries_of_finished {options : Options} (hid : options.idBased = false)
    {catalog : Catalog} (h : ∀ entry ∈ catalog.entries, entry.state = .finished) :
    storedEntries options catalog = catalog.entries := by
  refine List.filter_eq_self.mpr ?_
  intro entry hentry
  rw [Options.fate, h entry hentry, hid]
  rfl

/-- A restored catalog has the records that it was restored from. -/
theorem sortedRecords_restoredCatalog (catalog : Catalog) {records : Records}
    (hsorted : records.Pairwise fun a b => Key.order a.1 b.1 = .lt) :
    sortedRecords {} (restoredCatalog catalog records) = records := by
  have hstored : storedEntries {} (restoredCatalog catalog records)
      = records.map (restoredEntry catalog.language) := by
    refine storedEntries_of_finished rfl ?_
    intro entry hentry
    obtain ⟨record, -, rfl⟩ := List.mem_map.mp hentry
    rfl
  have hkeys : (storedEntries {} (restoredCatalog catalog records)).map (recordKey {})
      = records.map Prod.fst := by
    rw [hstored, List.map_map]
    rfl
  have hnodup : ((storedEntries {} (restoredCatalog catalog records)).map (recordKey {})).Nodup := by
    rw [hkeys, List.nodup_iff_pairwise_ne, List.pairwise_map]
    refine hsorted.imp ?_
    intro a b hlt heq
    rw [Key.order_eq_eq.mpr heq] at hlt
    cases hlt
  have hrecords : ((storedEntries {} (restoredCatalog catalog records)).map fun entry =>
      (recordKey {} entry, ({} : Options).translationsOf entry)) = records := by
    rw [hstored, List.map_map]
    exact List.map_id records
  refine sortedRecords_of_perm hsorted ?_
  rw [collect_of_nodup rfl hnodup, hrecords]
  exact List.reverse_perm records

/-! ## Bytes -/

theorem compile_bytes (options : Options) (catalog : Catalog) :
    (compile options catalog).2.map Compilation.bytes
      = blocksOf options catalog
          (contextBlock options.saveMode (sortedRecords options catalog)).1 >>= assemble := by
  cases h : blocksOf options catalog
      (contextBlock options.saveMode (sortedRecords options catalog)).1 >>= assemble with
  | error e =>
      simp only [compile, h]
      rfl
  | ok bytes =>
      simp only [compile, h]
      rfl

/-- The blocks follow from the records, the language and the dependencies. -/
theorem blocksOf_congr {options options' : Options} {catalog catalog' : Catalog}
    (hmode : options.saveMode = options'.saveMode)
    (hrecords : sortedRecords options catalog = sortedRecords options' catalog')
    (hlanguage : catalog.language = catalog'.language)
    (hdependencies : catalog.dependencies = catalog'.dependencies) (contexts : Bytes) :
    blocksOf options catalog contexts = blocksOf options' catalog' contexts := by
  rw [blocksOf, blocksOf, hmode, hrecords, hlanguage, hdependencies]

theorem compile_bytes_congr {options options' : Options} {catalog catalog' : Catalog}
    (hmode : options.saveMode = options'.saveMode)
    (hrecords : sortedRecords options catalog = sortedRecords options' catalog')
    (hlanguage : catalog.language = catalog'.language)
    (hdependencies : catalog.dependencies = catalog'.dependencies) :
    (compile options catalog).2.map Compilation.bytes
      = (compile options' catalog').2.map Compilation.bytes := by
  rw [compile_bytes, compile_bytes, hmode, hrecords,
    blocksOf_congr hmode hrecords hlanguage hdependencies]

/-- A catalog that was compiled in full can be restored and compiled again,
by default options, and comes to the same bytes. -/
theorem compile_decompile {options : Options} {catalog : Catalog} {compilation : Compilation}
    (hmode : options.saveMode = .everything)
    (h : (compile options catalog).2 = .ok compilation) :
    ∃ restored again, decompile compilation.bytes = .ok restored
      ∧ (compile {} restored).2 = .ok again ∧ again.bytes = compilation.bytes := by
  obtain ⟨file, hparse, hfile⟩ := parse_compile h
  have hdecompile := bind_eq_ok.mpr ⟨file, hparse, hfile.toCatalog_everything hmode⟩
  have hrecords := sortedRecords_restoredCatalog catalog (pairwise_sortedRecords options catalog)
  have hbytes := compile_bytes_congr hmode hrecords.symm rfl rfl
  rw [h] at hbytes
  obtain ⟨again, hagain, hsame⟩ := map_eq_ok.mp hbytes.symm
  exact ⟨_, again, hdecompile, hagain, hsame⟩

/-- A catalog of which two options leave their mark on the records: one key
loses a comment, and one translation is filled in. -/
def marked : Catalog where
  entries := [
    { context := "C", source := "ab", comment := "c", translations := ["x", "y"]
      state := .finished, plural := true },
    { context := "C", source := "Open", translations := [""] },
    { context := "D", source := "%n", translations := [], state := .finished }]
  language := "ja"
  dependencies := ["base"]

theorem compile_decompile_marked :
    ∃ compilation restored again,
      (compile { untranslatedPrefix := some "?", squeezeComments := true } marked).2
          = .ok compilation
        ∧ decompile compilation.bytes = .ok restored
        ∧ (compile {} restored).2 = .ok again ∧ again.bytes = compilation.bytes := by
  obtain ⟨compilation, h⟩ := exists_compile
    { untranslatedPrefix := some "?", squeezeComments := true } marked
    (by decide) (by decide) (by decide)
  obtain ⟨restored, again, hagain⟩ := compile_decompile rfl h
  exact ⟨compilation, restored, again, h, hagain⟩

end MessageCatalog.Compiled
