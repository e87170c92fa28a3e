/-
# `MessageCatalog.Proofs.RecordSet` — the records of a catalog as a map

The stored entries of a catalog claim keys one after the other, and the
first to claim a key keeps it.  So the records are a map from keys to
translations: no key occurs twice, and sorting them gives the one strictly
ascending list of the map.

`origins` is the same run with the entries themselves in place of their
translations; it says which entry a record came from.
-/
import Mathlib.Data.List.Nodup
import MessageCatalog.Compiled.Selection
import MessageCatalog.Proofs.KeyOrder

namespace MessageCatalog.Compiled

/-! ## Claiming keys -/

/-- The key that an entry claims when some keys are taken. -/
def claimedKey (options : Options) (catalog : Catalog) (taken : Key → Bool) (entry : Entry) : Key :=
  if options.idBased then idKey entry
  else if !keepsComment options catalog entry && !taken (squeezedKey entry) then squeezedKey entry
  else fullKey entry

theorem storeEntry_eq (options : Options) (catalog : Catalog) (records : Records) (entry : Entry) :
    storeEntry options catalog records entry
      = records.add (claimedKey options catalog records.has entry)
          (options.translationsOf entry) := by
  unfold storeEntry claimedKey
  split
  · rfl
  · split <;> rfl

/-- The key of the record of an entry, where no comment is left out. -/
def recordKey (options : Options) (entry : Entry) : Key :=
  if options.idBased then idKey entry else fullKey entry

theorem claimedKey_eq_recordKey {options : Options} {catalog : Catalog}
    (hsqueeze : options.squeezeComments = false) (taken : Key → Bool) (entry : Entry) :
    claimedKey options catalog taken entry = recordKey options entry := by
  have hkeeps : keepsComment options catalog entry = true := by
    unfold keepsComment
    rw [hsqueeze]
    rfl
  simp [claimedKey, recordKey, hkeeps]

theorem claimedKey_eq_fullKey {options : Options} {catalog : Catalog} (hid : options.idBased = false)
    (hsqueeze : options.squeezeComments = false) (taken : Key → Bool) (entry : Entry) :
    claimedKey options catalog taken entry = fullKey entry := by
  rw [claimedKey_eq_recordKey hsqueeze, recordKey, hid]
  rfl

namespace Records

variable {records : Records} {key : Key} {translations : List String}

theorem has_iff : records.has key = true ↔ key ∈ records.map Prod.fst := by
  simp [has, List.any_eq_true]

theorem mem_keys_add {asked : Key} :
    asked ∈ (records.add key translations).map Prod.fst
      ↔ asked = key ∨ asked ∈ records.map Prod.fst := by
  unfold add
  split
  · next htaken =>
    rw [has_iff] at htaken
    constructor
    · exact .inr
    · rintro (rfl | hasked)
      · exact htaken
      · exact hasked
  · rw [List.map_cons, List.mem_cons]

theorem nodup_add (h : (records.map Prod.fst).Nodup) :
    ((records.add key translations).map Prod.fst).Nodup := by
  unfold add
  split
  · exact h
  · next htaken =>
    rw [List.map_cons, List.nodup_cons]
    exact ⟨fun hmem => htaken (has_iff.mpr hmem), h⟩

/-- In a map a key has the translations that stand beside it. -/
theorem lookup_eq_some (h : (records.map Prod.fst).Nodup) :
    records.lookup key = some translations ↔ (key, translations) ∈ records := by
  induction records with
  | nil => simp
  | cons record rest ih =>
      rw [List.map_cons, List.nodup_cons] at h
      rw [List.lookup_cons, List.mem_cons]
      by_cases hkey : key = record.1
      · subst hkey
        have hrest : (record.1, translations) ∉ rest := fun hmem =>
          h.1 (List.mem_map.mpr ⟨_, hmem, rfl⟩)
        simp [hrest, Prod.ext_iff, eq_comm]
      · have hbeq : (key == record.1) = false := beq_eq_false_iff_ne.mpr hkey
        have hne : (key, translations) ≠ record := fun he => hkey (congrArg Prod.fst he)
        simp only [hbeq, hne, false_or, ih h.2]

theorem lookup_eq_none : records.lookup key = none ↔ key ∉ records.map Prod.fst := by
  rw [List.lookup_eq_none_iff, List.mem_map]
  constructor
  · rintro h ⟨record, hrecord, rfl⟩
    exact bne_iff_ne.mp (h record hrecord) rfl
  · intro h record hrecord
    exact bne_iff_ne.mpr fun hkey => h ⟨record, hrecord, hkey.symm⟩

end Records

/-! ## The map -/

theorem nodup_collect (options : Options) (catalog : Catalog) :
    ((collect options catalog).map Prod.fst).Nodup := by
  have hrun : ∀ (entries : List Entry) (records : Records), (records.map Prod.fst).Nodup →
      ((entries.foldl (storeEntry options catalog) records).map Prod.fst).Nodup := by
    intro entries
    induction entries with
    | nil => exact fun _ h => h
    | cons entry entries ih =>
        intro records h
        refine ih _ ?_
        rw [storeEntry_eq]
        exact Records.nodup_add h
  exact hrun _ [] List.nodup_nil

/-- Every stored entry has a record under its key. -/
theorem mem_keys_collect {options : Options} {catalog : Catalog} (hid : options.idBased = false)
    (hsqueeze : options.squeezeComments = false) {key : Key} :
    key ∈ (collect options catalog).map Prod.fst
      ↔ ∃ entry ∈ storedEntries options catalog, fullKey entry = key := by
  have hrun : ∀ (entries : List Entry) (records : Records),
      key ∈ (entries.foldl (storeEntry options catalog) records).map Prod.fst
        ↔ key ∈ records.map Prod.fst ∨ ∃ entry ∈ entries, fullKey entry = key := by
    intro entries
    induction entries with
    | nil => simp
    | cons entry entries ih =>
        intro records
        rw [List.foldl_cons, ih, storeEntry_eq, claimedKey_eq_fullKey hid hsqueeze,
          Records.mem_keys_add, List.exists_mem_cons_iff]
        constructor
        · rintro ((rfl | hmem) | hrest)
          · exact .inr (.inl rfl)
          · exact .inl hmem
          · exact .inr (.inr hrest)
        · rintro (hmem | rfl | hrest)
          · exact .inl (.inr hmem)
          · exact .inl (.inl rfl)
          · exact .inr hrest
  refine (hrun _ []).trans ?_
  simp

theorem mem_sortedRecords {options : Options} {catalog : Catalog} {record : Key × List String} :
    record ∈ sortedRecords options catalog ↔ record ∈ collect options catalog :=
  (List.mergeSort_perm _ _).mem_iff

theorem nodup_sortedRecords (options : Options) (catalog : Catalog) :
    ((sortedRecords options catalog).map Prod.fst).Nodup :=
  ((List.mergeSort_perm _ _).map Prod.fst).nodup_iff.mpr (nodup_collect options catalog)

/-- The mode decides how the records are written, not which ones. -/
theorem sortedRecords_saveMode (options : Options) (catalog : Catalog) (mode : SaveMode) :
    sortedRecords { options with saveMode := mode } catalog = sortedRecords options catalog := rfl

theorem sortedRecords_ne_nil {options : Options} {catalog : Catalog}
    (h : collect options catalog ≠ []) : sortedRecords options catalog ≠ [] := by
  intro hnil
  have hperm : (sortedRecords options catalog).Perm (collect options catalog) :=
    List.mergeSort_perm _ _
  rw [hnil] at hperm
  exact h hperm.nil_eq.symm

/-- The records are written in strictly ascending order of their keys. -/
theorem pairwise_sortedRecords (options : Options) (catalog : Catalog) :
    (sortedRecords options catalog).Pairwise fun a b => Key.order a.1 b.1 = .lt := by
  have hsorted : (sortedRecords options catalog).Pairwise fun a b =>
      (Key.order a.1 b.1).isLE = true :=
    pairwise_mergeSort_isLE Prod.fst _
  have hdistinct : (sortedRecords options catalog).Pairwise fun a b => a.1 ≠ b.1 :=
    List.pairwise_map.mp (nodup_sortedRecords options catalog)
  exact (hsorted.and hdistinct).imp fun h => Key.order_lt_of_isLE h.1 h.2

/-- Different keys in ascending order are in the order that they are written
in. -/
theorem sortedRecords_of_perm {options : Options} {catalog : Catalog} {records : Records}
    (hsorted : records.Pairwise fun a b => Key.order a.1 b.1 = .lt)
    (hperm : (collect options catalog).Perm records) : sortedRecords options catalog = records := by
  refine List.Perm.eq_of_pairwise ?_ (pairwise_sortedRecords options catalog) hsorted ?_
  · intro a b _ _ hab hba
    have hgt : Key.order b.1 a.1 = .gt := Std.OrientedCmp.gt_of_lt hab
    rw [hgt] at hba
    cases hba
  · exact (List.mergeSort_perm _ _).trans hperm

/-! ## Origins -/

/-- A key is taken by an entry. -/
def isTaken (origins : List (Key × Entry)) (key : Key) : Bool :=
  origins.any fun known => known.1 == key

/-- Gives an entry the key that it claims, unless that is taken. -/
def claim (options : Options) (catalog : Catalog) (origins : List (Key × Entry)) (entry : Entry) :
    List (Key × Entry) :=
  if isTaken origins (claimedKey options catalog (isTaken origins) entry) then origins
  else (claimedKey options catalog (isTaken origins) entry, entry) :: origins

/-- The keys that are taken, each with the entry that it was taken by. -/
def origins (options : Options) (catalog : Catalog) : List (Key × Entry) :=
  (storedEntries options catalog).foldl (claim options catalog) []

/-- The record that comes from an entry with its key. -/
def recordOf (options : Options) (origin : Key × Entry) : Key × List String :=
  (origin.1, options.translationsOf origin.2)

theorem storeEntry_map_recordOf (options : Options) (catalog : Catalog)
    (origins : List (Key × Entry)) (entry : Entry) :
    storeEntry options catalog (origins.map (recordOf options)) entry
      = (claim options catalog origins entry).map (recordOf options) := by
  have htaken : Records.has (origins.map (recordOf options)) = isTaken origins := by
    funext key
    simp [Records.has, isTaken, recordOf, List.any_map, Function.comp_def]
  rw [storeEntry_eq, Records.add, htaken, claim]
  split <;> rfl

/-- Every record comes from the entry that took its key. -/
theorem collect_eq_map_origins (options : Options) (catalog : Catalog) :
    collect options catalog = (origins options catalog).map (recordOf options) := by
  have hrun : ∀ (entries : List Entry) (origins : List (Key × Entry)),
      entries.foldl (storeEntry options catalog) (origins.map (recordOf options))
        = (entries.foldl (claim options catalog) origins).map (recordOf options) := by
    intro entries
    induction entries with
    | nil => exact fun _ => rfl
    | cons entry entries ih =>
        intro origins
        rw [List.foldl_cons, List.foldl_cons, storeEntry_map_recordOf, ih]
  exact hrun _ []

theorem mem_storedEntries_of_mem_origins {options : Options} {catalog : Catalog}
    {origin : Key × Entry} (h : origin ∈ origins options catalog) :
    origin.2 ∈ storedEntries options catalog := by
  have hrun : ∀ (entries : List Entry) (origins : List (Key × Entry)),
      origin ∈ entries.foldl (claim options catalog) origins →
        origin ∈ origins ∨ origin.2 ∈ entries := by
    intro entries
    induction entries with
    | nil => exact fun _ h => .inl h
    | cons entry entries ih =>
        intro origins h
        rcases ih _ h with hclaim | hmem
        · unfold claim at hclaim
          split at hclaim
          · exact .inl hclaim
          · rcases List.mem_cons.mp hclaim with rfl | hknown
            · exact .inr List.mem_cons_self
            · exact .inl hknown
        · exact .inr (List.mem_cons_of_mem _ hmem)
  exact (hrun _ [] h).resolve_left List.not_mem_nil

/-- Under the key that an entry took its translations are stored. -/
theorem lookup_of_mem_origins {options : Options} {catalog : Catalog} {origin : Key × Entry}
    (h : origin ∈ origins options catalog) :
    (collect options catalog).lookup origin.1 = some (options.translationsOf origin.2) := by
  rw [Records.lookup_eq_some (nodup_collect options catalog), collect_eq_map_origins]
  exact List.mem_map_of_mem h

end MessageCatalog.Compiled
