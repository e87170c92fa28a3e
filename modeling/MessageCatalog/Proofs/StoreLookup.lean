/-
# `MessageCatalog.Proofs.StoreLookup` — what a store finds

Looking up asks a fresh index, so what is known of the index after a run
(`Store.IsKept.run`) is known of every answer.  An answer is right after any
run.  That there is one for whatever is stored takes more: nothing that was
put in the place of another entry may have taken away a key that a third
entry has.  The two entries of `twins` show what happens otherwise.
-/
import MessageCatalog.Proofs.StoreRun

namespace MessageCatalog

/-- The entry is rightly found for another one: it has its id, or its
contents where not both have an id. -/
def Entry.Matches (entry found : Entry) : Prop :=
  entry.id ≠ "" ∧ found.id = entry.id
    ∨ found.contentKey = entry.contentKey ∧ found.isPlaceholder = false
        ∧ (entry.id = "" ∨ found.id = "")

namespace Entry

theorem isFiledUnder_content {entry : Entry} {key : ContentKey} :
    entry.isFiledUnder (.content key) = true
      ↔ entry.isPlaceholder = false ∧ entry.contentKey = key := by
  simp [isFiledUnder]

theorem isFiledUnder_id {entry : Entry} {id : String} :
    entry.isFiledUnder (.id id) = true ↔ entry.id ≠ "" ∧ entry.id = id := by
  simp [isFiledUnder]

theorem isFiledUnder_context {entry : Entry} {context : String} :
    entry.isFiledUnder (.context context) = true
      ↔ entry.isPlaceholder = true ∧ entry.context = context := by
  simp [isFiledUnder]

end Entry

/-! ## Soundness -/

/-- What a sound index locates matches. -/
theorem Store.matches_of_locate {store : Store} (h : store.index.Sound store.entries)
    {entry : Entry} {position : Nat} (hlocate : store.locate entry = some position) :
    ∃ found, store.entries[position]? = some found ∧ entry.Matches found := by
  have hcontent : store.index.ofContent? entry.contentKey = some position →
      ∃ found, store.entries[position]? = some found
        ∧ found.isPlaceholder = false ∧ found.contentKey = entry.contentKey := by
    intro hposition
    obtain ⟨found, hfound, hfiled⟩ := h (.content entry.contentKey) position hposition
    exact ⟨found, hfound, Entry.isFiledUnder_content.mp hfiled⟩
  simp only [locate] at hlocate
  split at hlocate
  · next hid =>
    rw [String.isEmpty_iff] at hid
    obtain ⟨found, hfound, hplaceholder, hkey⟩ := hcontent hlocate
    exact ⟨found, hfound, .inr ⟨hkey, hplaceholder, .inl hid⟩⟩
  · next hid =>
    rw [String.isEmpty_iff] at hid
    split at hlocate
    · next hposition =>
      cases hlocate
      obtain ⟨found, hfound, hfiled⟩ := h (.id entry.id) position hposition
      exact ⟨found, hfound, .inl ⟨hid, (Entry.isFiledUnder_id.mp hfiled).2⟩⟩
    · -- an unknown id: the contents count if what has them has no id
      obtain ⟨hposition, hwithout⟩ := Option.filter_eq_some_iff.mp hlocate
      obtain ⟨found, hfound, hplaceholder, hkey⟩ := hcontent hposition
      rw [hfound, Option.any_some, String.isEmpty_iff] at hwithout
      exact ⟨found, hfound, .inr ⟨hkey, hplaceholder, .inr hwithout⟩⟩

/-- After any run, whatever a look-up leads to is stored there and matches. -/
theorem Store.matches_of_found {catalog : Catalog} {operations : List Operation} {store : Store}
    (hrun : (Store.ofCatalog catalog).run operations = store) :
    (∀ entry position, (store.find entry).1 = some position →
        ∃ inside : position < store.entries.length, entry.Matches store.entries[position])
      ∧ (∀ id position, (store.findId id).1 = some position →
        ∃ inside : position < store.entries.length, store.entries[position].id = id)
      ∧ (∀ context position, (store.findContext context).1 = some position →
        ∃ inside : position < store.entries.length,
          store.entries[position].isPlaceholder = true
            ∧ store.entries[position].context = context) := by
  have hsound := Store.isKept_sound.run (Store.runsWithin_true operations _) hrun
  rw [← Store.entries_refreshed]
  refine ⟨?_, ?_, ?_⟩
  · intro entry position hposition
    obtain ⟨found, hfound, hmatches⟩ := Store.matches_of_locate hsound hposition
    obtain ⟨inside, rfl⟩ := List.getElem?_eq_some_iff.mp hfound
    exact ⟨inside, hmatches⟩
  · intro id position hposition
    obtain ⟨found, hfound, hfiled⟩ := hsound (.id id) position hposition
    obtain ⟨inside, rfl⟩ := List.getElem?_eq_some_iff.mp hfound
    exact ⟨inside, (Entry.isFiledUnder_id.mp hfiled).2⟩
  · intro context position hposition
    obtain ⟨found, hfound, hfiled⟩ := hsound (.context context) position hposition
    obtain ⟨inside, rfl⟩ := List.getElem?_eq_some_iff.mp hfound
    exact ⟨inside, Entry.isFiledUnder_context.mp hfiled⟩

/-- Two entries with ids of their own and the same contents. -/
def twins : Catalog where
  entries := [
    { id := "a", context := "C", source := "Open" },
    { id := "b", context := "C", source := "Open" }]

/-- One of the twins is looked up and then gets other contents. -/
def parting : List Operation :=
  [.findId "b", .replace { id := "b", context := "C", source := "Close" }]

/-- The twin that was left behind is found by its id, and the other one by
its new contents. -/
theorem Store.matches_of_found_twins :
    ((Store.ofCatalog twins).run parting).entries.length = 2
      ∧ (((Store.ofCatalog twins).run parting).findId "a").1 = some 0
      ∧ (∃ inside : 0 < ((Store.ofCatalog twins).run parting).entries.length,
        ((Store.ofCatalog twins).run parting).entries[0].id = "a")
      ∧ (((Store.ofCatalog twins).run parting).find { context := "C", source := "Close" }).1
        = some 1
      ∧ ∃ inside : 1 < ((Store.ofCatalog twins).run parting).entries.length,
        Entry.Matches { context := "C", source := "Close" }
          ((Store.ofCatalog twins).run parting).entries[1] := by
  obtain ⟨hfind, hfindId, -⟩ := Store.matches_of_found (rfl :
    (Store.ofCatalog twins).run parting = (Store.ofCatalog twins).run parting)
  have hleft : (((Store.ofCatalog twins).run parting).findId "a").1 = some 0 := by decide +kernel
  have hparted : (((Store.ofCatalog twins).run parting).find
      { context := "C", source := "Close" }).1 = some 1 := by decide +kernel
  exact ⟨by decide +kernel, hleft, hfindId _ _ hleft, hparted, hfind _ _ hparted⟩

/-! ## What is found -/

/-- What is stored is found, after a run in which no entry that was put in
the place of another one took away a key that a third entry has. -/
theorem Store.isSome_find_of_stored {catalog : Catalog} {operations : List Operation}
    {store : Store} (hrun : (Store.ofCatalog catalog).run operations = store)
    (hspares : (Store.ofCatalog catalog).RunsWithin Index.Spares operations) :
    ∀ known ∈ store.entries,
      (known.id ≠ "" → (store.findId known.id).1.isSome = true)
        ∧ (known.isPlaceholder = false → ∀ entry : Entry, entry.id = "" →
            entry.contentKey = known.contentKey → (store.find entry).1.isSome = true) := by
  have hcovers := Store.isKept_covers.run hspares hrun
  intro known hknown
  rw [← Store.entries_refreshed] at hknown
  constructor
  · intro hid
    exact hcovers known hknown (.id known.id) (Entry.isFiledUnder_id.mpr ⟨hid, rfl⟩)
  · intro hplaceholder entry hid hkey
    have hposition := hcovers known hknown (.content known.contentKey)
      (Entry.isFiledUnder_content.mpr ⟨hplaceholder, rfl⟩)
    have hlocate : store.refreshed.locate entry
        = store.refreshed.index.ofContent? known.contentKey := by
      unfold locate
      rw [← hkey]
      exact if_pos (String.isEmpty_iff.mpr hid)
    unfold find
    rw [hlocate]
    exact hposition

/-- One of the twins is looked up and then translated. -/
def translating : List Operation :=
  [.findId "b", .replace { id := "b", context := "C", source := "Open", translations := ["Auf"] }]

theorem Store.isSome_find_of_stored_twins :
    (Store.ofCatalog twins).RunsWithin Index.Spares translating
      ∧ (((Store.ofCatalog twins).run translating).findId "a").1.isSome = true
      ∧ (((Store.ofCatalog twins).run translating).find
          { context := "C", source := "Open" }).1.isSome = true := by
  have hspares : (Store.ofCatalog twins).RunsWithin Index.Spares translating := by
    refine ⟨trivial, ?_, trivial⟩
    intro position hposition place old third key _ hold _ hfiled _
    have hone : ((Operation.findId "b").apply (.ofCatalog twins)).find
        { id := "b", context := "C", source := "Open", translations := ["Auf"] }
          = (some 1, (Operation.findId "b").apply (.ofCatalog twins)) := by
      decide +kernel
    rw [hone] at hposition
    cases hposition
    cases hold
    -- the translated twin is filed under the keys that it had
    exact (congrFun (Entry.isFiledUnder_eq rfl rfl) key).trans hfiled
  have hfound := Store.isSome_find_of_stored rfl hspares
  have hleft : ({ id := "a", context := "C", source := "Open" } : Entry)
      ∈ ((Store.ofCatalog twins).run translating).entries := by
    decide +kernel
  obtain ⟨hid, hcontents⟩ := hfound _ hleft
  exact ⟨hspares, hid (by decide), hcontents rfl _ rfl rfl⟩

/-- The twin that was left behind has not got its contents back: with them it
is not found. -/
theorem Store.find_twins_eq_none :
    ∃ known ∈ ((Store.ofCatalog twins).run parting).entries,
      known.isPlaceholder = false ∧ known.contentKey = ⟨"C", "Open", ""⟩
        ∧ (((Store.ofCatalog twins).run parting).find { context := "C", source := "Open" }).1
          = none := by
  decide +kernel

end MessageCatalog
