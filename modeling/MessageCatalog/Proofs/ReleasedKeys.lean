/-
# `MessageCatalog.Proofs.ReleasedKeys` — the keys of a release

Without ids, and with comments kept, the keys of the records are those of
the stored entries.  Of the entries of a catalog with the same contents a
release has one left to decide about, which has the state of the first of
them and the translations of the first that is translated:

    finished                            it is stored
    unfinished                          it is stored if the first of its
                                        translations has a text
    vanished, obsolete                  it is not

Fitting the translations decides nothing, since there is at least one form.
So a finished and translated entry has a record unless an earlier one with
its contents stands in for it that has none.  In `withdrawn` a translation
comes to nothing because the first entry with its text is obsolete.
-/
import MessageCatalog.Proofs.Folding
import MessageCatalog.Proofs.ReleasedForms
import MessageCatalog.Proofs.RoundTrip

namespace MessageCatalog

/-- A release with default options stores the entry. -/
def Entry.IsReleased (entry : Entry) : Prop :=
  entry.state = .finished ∨ entry.state = .unfinished ∧ entry.translation ≠ ""

/-! ## Keys of records -/

namespace Compiled

variable {options : Options} {catalog : Catalog}

theorem exists_restoredEntry_iff {key : Key} :
    (∃ record ∈ (sortedRecords options catalog).map (restoredEntry catalog.language),
        fullKey record = key)
      ↔ key ∈ (collect options catalog).map Prod.fst := by
  constructor
  · rintro ⟨_, hmem, rfl⟩
    obtain ⟨record, hrecord, rfl⟩ := List.mem_map.mp hmem
    exact List.mem_map.mpr ⟨record, mem_sortedRecords.mp hrecord, rfl⟩
  · intro hmem
    obtain ⟨record, hrecord, rfl⟩ := List.mem_map.mp hmem
    exact ⟨_, List.mem_map_of_mem (mem_sortedRecords.mpr hrecord), rfl⟩

theorem isStored_fate_default {entry : Entry} :
    (({} : Options).fate entry).isStored = true ↔ entry.IsReleased := by
  unfold Options.fate Entry.IsReleased
  cases entry.state with
  | finished => simp [EntryState.isRetired, Fate.isStored]
  | unfinished =>
      have hfills : ({} : Options).fillsIn = false := rfl
      cases hempty : entry.translation.isEmpty with
      | true => simp [EntryState.isRetired, Fate.isStored, hfills, String.isEmpty_iff.mp hempty]
      | false =>
          have hne := String.isEmpty_eq_false_iff.mp hempty
          simp [EntryState.isRetired, Fate.isStored, hne]
  | vanished => simp [EntryState.isRetired, Fate.isStored]
  | obsolete => simp [EntryState.isRetired, Fate.isStored]

end Compiled

/-! ## Fitting -/

theorem Catalog.formCount_pos (catalog : Catalog) : 0 < catalog.formCount :=
  Nat.zero_lt_of_lt (Plural.formIndex_ruleBlock_lt catalog.language 0)

/-- Fitting keeps the first translation. -/
theorem Entry.translation_fitted {forms : Nat} (h : 0 < forms) (entry : Entry) :
    (entry.fitted forms).translation = entry.translation := by
  have hneeded : 0 < entry.neededForms forms := by
    unfold neededForms
    split
    · exact h
    · exact Nat.zero_lt_one
  obtain ⟨needed, hneeded⟩ := Nat.exists_eq_succ_of_ne_zero (Nat.ne_of_gt hneeded)
  show (resized (entry.neededForms forms) entry.translations).head?.getD ""
    = entry.translations.head?.getD ""
  rw [hneeded, resized]
  cases entry.translations with
  | nil => rfl
  | cons first rest => rfl

theorem Entry.isReleased_fitted {forms : Nat} (h : 0 < forms) (entry : Entry) :
    (entry.fitted forms).IsReleased ↔ entry.IsReleased := by
  unfold IsReleased
  rw [translation_fitted h]
  rfl

/-! ## Releases -/

theorem Compiled.fullKey_eq_iff {a b : Entry} :
    fullKey a = fullKey b ↔ a.contentKey = b.contentKey := by
  simp [fullKey, Entry.contentKey]

/-- What is left of plain entries decides about the keys of their release. -/
theorem Catalog.mem_keys_prepared {catalog : Catalog}
    (hplain : ∀ entry ∈ catalog.entries, entry.IsPlain) {entry : Entry} :
    Compiled.fullKey entry ∈ (Compiled.collect {} (catalog.prepared false)).map Prod.fst
      ↔ ∃ left, leftOf catalog.entries entry.contentKey = some left ∧ left.IsReleased := by
  have hleft := isLeftOf_survivors hplain
  rw [Compiled.mem_keys_collect rfl rfl]
  constructor
  · rintro ⟨stored, hstored, hkey⟩
    obtain ⟨hmem, hfate⟩ := List.mem_filter.mp hstored
    obtain ⟨left, hsurvives, rfl⟩ := List.mem_map.mp hmem
    have hsame : left.contentKey = entry.contentKey := Compiled.fullKey_eq_iff.mp hkey
    refine ⟨left, hsame ▸ hleft.mem_iff.mp hsurvives, ?_⟩
    rw [Compiled.isStored_fate_default] at hfate
    exact (Entry.isReleased_fitted (Catalog.formCount_pos _) left).mp hfate
  · rintro ⟨left, hfound, hreleased⟩
    have hsame : left.contentKey = entry.contentKey := contentKey_of_leftOf hfound
    have hsurvives := hleft.mem_iff.mpr (hsame ▸ hfound)
    refine ⟨left.fitted _, List.mem_filter.mpr ⟨List.mem_map_of_mem hsurvives, ?_⟩,
      Compiled.fullKey_eq_iff.mpr hsame⟩
    rw [Compiled.isStored_fate_default]
    exact (Entry.isReleased_fitted (Catalog.formCount_pos _) left).mpr hreleased

theorem Entry.isTranslated_of_translation {entry : Entry} (h : entry.translation ≠ "") :
    entry.isTranslated = true := by
  unfold translation at h
  unfold isTranslated
  cases htranslations : entry.translations with
  | nil =>
      rw [htranslations] at h
      exact absurd rfl h
  | cons first rest =>
      rw [htranslations] at h
      have hfirst : first.isEmpty = false := String.isEmpty_eq_false_iff.mpr h
      rw [List.any_cons, hfirst]
      rfl

/-- A release that leaves out no part of a key is restored with the keys of
its records. -/
theorem Catalog.exists_decompile_release {options : Compiled.Options}
    {removeIdentical verbose : Bool} {path : Path} {catalog : Catalog} {bytes : Bytes}
    (hmode : options.saveMode = .everything)
    (h : (catalog.release options removeIdentical verbose path).bytes = .ok bytes) :
    ∃ restored, Compiled.decompile bytes = .ok restored
      ∧ ∀ entry : Entry, (∃ record ∈ restored.entries, record.contentKey = entry.contentKey)
          ↔ Compiled.fullKey entry
            ∈ (Compiled.collect options (catalog.prepared removeIdentical)).map Prod.fst := by
  obtain ⟨file, hparse, hfile⟩ := Catalog.parse_release h
  refine ⟨_, Compiled.bind_eq_ok.mpr ⟨file, hparse, hfile.toCatalog_everything hmode⟩, ?_⟩
  intro entry
  simp only [← Compiled.fullKey_eq_iff]
  exact Compiled.exists_restoredEntry_iff

/-- Releasing plain entries by default, a finished one with a translation has
a record under its key exactly when the first entry with that key is finished
too, or is unfinished and the first of these entries that is translated has
a first translation. -/
theorem Catalog.exists_record_release_iff {verbose : Bool} {path : Path} {catalog : Catalog}
    {bytes : Bytes} (hplain : ∀ entry ∈ catalog.entries, entry.id = "" ∧ entry.source ≠ "")
    (h : (catalog.release {} false verbose path).bytes = .ok bytes) :
    ∃ restored, Compiled.decompile bytes = .ok restored
      ∧ ∀ entry ∈ catalog.entries, entry.state = .finished → entry.translation ≠ "" →
          ∃ first donor,
            (catalog.entries.find? fun e => e.contentKey == entry.contentKey) = some first
              ∧ (catalog.entries.find? fun e =>
                  e.contentKey == entry.contentKey && e.isTranslated) = some donor
              ∧ ((∃ record ∈ restored.entries, record.contentKey = entry.contentKey)
                  ↔ first.state = .finished
                    ∨ first.state = .unfinished ∧ donor.translation ≠ "") := by
  obtain ⟨restored, hrestored, hkeys⟩ := Catalog.exists_decompile_release rfl h
  refine ⟨restored, hrestored, ?_⟩
  intro entry hentry _ htranslation
  obtain ⟨first, donor, hfirst, hdonor, hleft⟩ :=
    exists_leftOf hentry (Entry.isTranslated_of_translation htranslation)
  refine ⟨first, donor, hfirst, hdonor, ?_⟩
  rw [hkeys, Catalog.mem_keys_prepared hplain, hleft]
  constructor
  · rintro ⟨left, hleft, hreleased⟩
    cases hleft
    exact hreleased
  · intro hreleased
    exact ⟨_, rfl, hreleased⟩

/-- Two texts, each translated in an entry that is not the first one with
it. -/
def withdrawn : Catalog where
  entries := [
    { context := "C", source := "Open", state := .obsolete },
    { context := "C", source := "Close" },
    { context := "C", source := "Open", translations := ["Auf"], state := .finished },
    { context := "C", source := "Close", translations := ["Zu"], state := .finished }]

theorem exists_release_withdrawn (path : Path) :
    ∃ bytes, (withdrawn.release {} false false path).bytes = .ok bytes := by
  refine Catalog.exists_release (Compiled.exists_compile _ _ ?_ ?_ ?_)
  · decide +kernel
  · decide +kernel
  · decide +kernel

/-- The text that was never obsolete is stored, and the other one is not. -/
theorem Catalog.exists_record_release_iff_withdrawn :
    ∃ bytes restored, (withdrawn.release {} false false default).bytes = .ok bytes
      ∧ Compiled.decompile bytes = .ok restored
      ∧ (∃ record ∈ restored.entries, record.contentKey = ⟨"C", "Close", ""⟩)
      ∧ ¬∃ record ∈ restored.entries, record.contentKey = ⟨"C", "Open", ""⟩ := by
  obtain ⟨bytes, h⟩ := exists_release_withdrawn default
  obtain ⟨restored, hrestored, hall⟩ :=
    Catalog.exists_record_release_iff (by decide) h
  refine ⟨bytes, restored, h, hrestored, ?_, ?_⟩
  · obtain ⟨first, donor, hfirst, hdonor, hrecord⟩ :=
      hall { context := "C", source := "Close", translations := ["Zu"], state := .finished }
        (by decide +kernel) rfl (by decide)
    cases hfirst
    cases hdonor
    exact hrecord.mpr (by decide)
  · obtain ⟨first, donor, hfirst, hdonor, hrecord⟩ :=
      hall { context := "C", source := "Open", translations := ["Auf"], state := .finished }
        (by decide +kernel) rfl (by decide)
    cases hfirst
    cases hdonor
    exact fun hmem => absurd (hrecord.mp hmem) (by decide)

/-- A finished entry with a translation goes without a record. -/
theorem Catalog.exists_no_record_withdrawn :
    ∃ bytes restored, (withdrawn.release {} false false default).bytes = .ok bytes
      ∧ Compiled.decompile bytes = .ok restored
      ∧ (∀ entry ∈ withdrawn.entries, entry.id = "" ∧ entry.source ≠ "")
      ∧ ∃ entry ∈ withdrawn.entries, entry.state = .finished ∧ entry.translation ≠ ""
          ∧ ¬∃ record ∈ restored.entries, record.contentKey = entry.contentKey := by
  obtain ⟨bytes, h⟩ := exists_release_withdrawn default
  obtain ⟨restored, hrestored, hkeys⟩ := Catalog.exists_decompile_release rfl h
  refine ⟨bytes, restored, h, hrestored, by decide, ?_⟩
  refine ⟨{ context := "C", source := "Open", translations := ["Auf"], state := .finished },
    by decide +kernel, rfl, by decide, ?_⟩
  rw [hkeys]
  decide +kernel

end MessageCatalog
