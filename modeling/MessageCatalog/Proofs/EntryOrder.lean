/-
# `MessageCatalog.Proofs.EntryOrder` — the order of the entries in a catalog

Compiling goes through the entries of a catalog in their order.  The order
shows in one place only: of several entries that claim one key, the first
gets it.  Where all keys are different it leaves no trace,

    records       are sorted by their keys before they are written
    statistics    are numbers of entries
    remarks       follow from these two

and two catalogs with the same entries in different orders compile alike.
-/
import MessageCatalog.Proofs.Recompiling

namespace MessageCatalog.Compiled

variable {options : Options} {catalog other : Catalog}

/-! ## What becomes of the entries -/

theorem perm_storedEntries (h : catalog.entries.Perm other.entries) :
    (storedEntries options catalog).Perm (storedEntries options other) :=
  h.filter _

theorem statistics_of_perm (h : catalog.entries.Perm other.entries) :
    statistics options catalog = statistics options other := by
  have hcount (p : Entry → Bool) : catalog.entries.countP p = other.entries.countP p :=
    h.countP_eq p
  have hdropped : (storedEntries options catalog).countP losesKeyParts
      = (storedEntries options other).countP losesKeyParts :=
    (perm_storedEntries h).countP_eq _
  simp only [statistics, hcount, hdropped]

/-- Entries with different keys have the same records in any order. -/
theorem sortedRecords_of_perm_entries (hsqueeze : options.squeezeComments = false)
    (h : catalog.entries.Perm other.entries)
    (hkeys : ((storedEntries options catalog).map (recordKey options)).Nodup) :
    sortedRecords options catalog = sortedRecords options other := by
  have hstored : (storedEntries options catalog).Perm (storedEntries options other) :=
    perm_storedEntries h
  have hkeys' : ((storedEntries options other).map (recordKey options)).Nodup :=
    (hstored.map _).nodup_iff.mp hkeys
  have hcollect : (collect options catalog).Perm (collect options other) := by
    rw [collect_of_nodup hsqueeze hkeys, collect_of_nodup hsqueeze hkeys']
    refine (List.reverse_perm _).trans ?_
    exact (hstored.map _).trans (List.reverse_perm _).symm
  refine sortedRecords_of_perm (pairwise_sortedRecords options other) ?_
  exact hcollect.trans (List.mergeSort_perm _ _).symm

/-! ## Compiling -/

/-- All that compiling comes to follows from the statistics, the records, the
language and the dependencies. -/
theorem compile_congr (hstatistics : statistics options catalog = statistics options other)
    (hrecords : sortedRecords options catalog = sortedRecords options other)
    (hlanguage : catalog.language = other.language)
    (hdependencies : catalog.dependencies = other.dependencies) :
    compile options catalog = compile options other := by
  simp only [compile, hstatistics, hrecords,
    blocksOf_congr rfl hrecords hlanguage hdependencies]

/-- Where all entries that are stored have different keys, compiling does not
depend on the order of the entries: the bytes or the fault, the statistics
and the remarks are the same. -/
theorem compile_of_perm (hsqueeze : options.squeezeComments = false)
    (hlanguage : catalog.language = other.language)
    (hdependencies : catalog.dependencies = other.dependencies)
    (hentries : catalog.entries.Perm other.entries)
    (hkeys : ((storedEntries options catalog).map (recordKey options)).Nodup) :
    compile options catalog = compile options other := by
  have hstatistics : statistics options catalog = statistics options other :=
    statistics_of_perm hentries
  have hrecords : sortedRecords options catalog = sortedRecords options other :=
    sortedRecords_of_perm_entries hsqueeze hentries hkeys
  exact compile_congr hstatistics hrecords hlanguage hdependencies

/-- `colliding` with its entries the other way round. -/
def collidingReversed : Catalog := { colliding with entries := colliding.entries.reverse }

theorem compile_of_perm_colliding :
    ∃ compilation, (compile { saveMode := .stripped } colliding).2 = .ok compilation
      ∧ collidingReversed.entries ≠ colliding.entries
      ∧ compile { saveMode := .stripped } collidingReversed
          = compile { saveMode := .stripped } colliding := by
  obtain ⟨compilation, h⟩ := exists_compile_colliding .stripped
  refine ⟨compilation, h, by decide, ?_⟩
  exact compile_of_perm rfl rfl rfl (List.reverse_perm _) (by decide)

end MessageCatalog.Compiled
