/-
# `MessageCatalog.Proofs.Merging` — the later entry wins

What is left of all the entries that are brought into a store is the last one
with each contents (`IsLastOfEach`), in the place that the first one had:

    base  a  b  c      others  b'  d  b''      merged  a  b''  c  d

and everything but the entries is that of the base (`Store.IsRightUnion`).

That takes a base that finds what it has (`Store.FindsAll`), and no more than
that: an entry that is hidden from its store is not replaced by a later one,
but stands beside it.  A store whose index is stale hides none, and neither
does one after a run that takes no key from a third entry.  In `rewording` an
entry is renamed by its id and takes such a key along.
-/
import Mathlib.Data.List.Nodup
import MessageCatalog.Proofs.Overlaying

namespace MessageCatalog

/-! ## The last entry with each contents -/

/-- The stored entries with some contents are the last given entry that has
them, or none if no given entry does. -/
def IsLastOfEach (given stored : List Entry) : Prop :=
  ∀ key, withContents key stored = (withContents key given).getLast?.toList

/-- The entries with some contents, counted among the contents of all. -/
theorem count_contentKey (entries : List Entry) (key : ContentKey) :
    (entries.map Entry.contentKey).count key = (withContents key entries).length := by
  rw [List.count, List.countP_map, List.countP_eq_length_filter]
  rfl

theorem nodup_contentKey_iff {entries : List Entry} :
    (entries.map Entry.contentKey).Nodup ↔ ∀ key, (withContents key entries).length ≤ 1 := by
  simp only [List.nodup_iff_count_le_one, count_contentKey]

theorem exists_toList_of_length_le_one {α : Type} {xs : List α} (h : xs.length ≤ 1) :
    ∃ single : Option α, xs = single.toList := by
  match xs with
  | [] => exact ⟨none, rfl⟩
  | [single] => exact ⟨some single, rfl⟩
  | _ :: _ :: _ => exact absurd h (by simp)

/-- What is left of a single entry at most, when others are put in its
place. -/
theorem overlaid_of_length_le_one {entries : List Entry} (h : entries.length ≤ 1)
    (incoming : List Entry) :
    overlaid entries incoming.getLast? = (entries ++ incoming).getLast?.toList := by
  obtain ⟨single, rfl⟩ := exists_toList_of_length_le_one h
  rw [List.getLast?_append]
  cases incoming.getLast? with
  | none => cases single <;> rfl
  | some last => cases single <;> rfl

namespace IsLastOfEach

variable {given stored : List Entry}

theorem nodup (h : IsLastOfEach given stored) : (stored.map Entry.contentKey).Nodup := by
  refine nodup_contentKey_iff.mpr fun key => ?_
  rw [h key]
  cases (withContents key given).getLast? with
  | none => exact Nat.zero_le _
  | some _ => exact Nat.le_refl _

end IsLastOfEach

/-! ## What a store finds -/

namespace Store

/-- Every stored entry is found. -/
def FindsAll (store : Store) : Prop :=
  ∀ known ∈ store.entries, (store.find known).1.isSome = true

/-- Behind the entry that is found for a stored one, none has its contents. -/
def FindsLast (store : Store) : Prop :=
  ∀ known ∈ store.entries, ∀ position, (store.find known).1 = some position →
    ∀ place entry, position < place → store.entries[place]? = some entry →
      entry.contentKey ≠ known.contentKey

section

variable {store : Store}

theorem findsAll_of_isIndexed (hplain : ∀ entry ∈ store.entries, entry.IsPlain)
    (h : store.IsIndexed) : store.FindsAll := by
  intro known hknown
  have hentry := hplain known hknown
  have hposition := (isIndexed_refreshed h).2 known ((entries_refreshed store).symm ▸ hknown) _
    (isFiledUnder_contentKey hentry)
  rwa [← locate_of_isPlain hentry] at hposition

/-- An index that leads rightly and hides no entry is right altogether. -/
theorem isIndexed_of_findsAll (hsound : store.fresh = true → store.index.Sound store.entries)
    (hplain : ∀ entry ∈ store.entries, entry.IsPlain) (h : store.FindsAll) : store.IsIndexed := by
  intro hfresh
  have hsame : store.refreshed = store := if_pos hfresh
  refine ⟨hsound hfresh, ?_⟩
  intro known hknown key hfiled
  have hfound := h known hknown
  rw [find, hsame, locate_of_isPlain (hplain known hknown)] at hfound
  rwa [eq_content_of_isFiledUnder (hplain known hknown) hfiled]

theorem findsLast_of_leadsToLast (hplain : ∀ entry ∈ store.entries, entry.IsPlain)
    (h : store.LeadsToLast) : store.FindsLast := by
  intro known hknown position hposition place entry hbehind hentry
  rw [← entries_refreshed store] at hplain hentry hknown
  exact contentKey_ne_of_locate (latest_refreshed h) hplain (hplain known hknown) hposition place
    entry hbehind hentry

theorem leadsToLast_of_findsLast (hsound : store.fresh = true → store.index.Sound store.entries)
    (hplain : ∀ entry ∈ store.entries, entry.IsPlain) (h : store.FindsLast) :
    store.LeadsToLast := by
  intro hfresh key position hposition place entry hbehind hentry
  have hsame : store.refreshed = store := if_pos hfresh
  obtain ⟨known, hknown, hfiled⟩ := hsound hfresh key position hposition
  have hmem := List.mem_of_getElem? hknown
  have hkey := eq_content_of_isFiledUnder (hplain known hmem) hfiled
  have hfound : (store.find known).1 = some position := by
    rw [find, hsame, locate_of_isPlain (hplain known hmem), ← hkey, hposition]
  refine Bool.eq_false_iff.mpr fun hsameKey => ?_
  have hentryKey := eq_content_of_isFiledUnder (hplain entry (List.mem_of_getElem? hentry)) hsameKey
  exact h known hmem position hfound place entry hbehind hentry
    (IndexKey.content.inj (hentryKey.symm.trans hkey))

end

section

variable {catalog : Catalog} {operations : List Operation} {base : Store}

/-- What the steps of a run keep holds of the index that it leaves, where that
does not have to be built anew. -/
theorem IsKept.of_run {rekeys : List Entry → Nat → Entry → Prop}
    {P : Index → List Entry → Prop} (hkept : IsKept rekeys P)
    (hrun : (ofCatalog catalog).run operations = base)
    (h : base.fresh = false ∨ (ofCatalog catalog).RunsWithin rekeys operations)
    (hfresh : base.fresh = true) : P base.index base.entries := by
  have hsame : base.refreshed = base := if_pos hfresh
  rcases h with hstale | hwithin
  · rw [hstale] at hfresh
    cases hfresh
  · have hkeeps := hkept.run hwithin hrun
    rwa [hsame] at hkeeps

theorem sound_of_run (hrun : (ofCatalog catalog).run operations = base) (hfresh : base.fresh = true) :
    base.index.Sound base.entries :=
  isKept_sound.of_run hrun (.inr (runsWithin_true operations _)) hfresh

/-- Where the index has to be built anew, or no key was taken from a third
entry, every entry is found. -/
theorem findsAll_of_run (hrun : (ofCatalog catalog).run operations = base)
    (hbase : ∀ entry ∈ base.entries, entry.IsPlain)
    (h : base.fresh = false ∨ (ofCatalog catalog).RunsWithin Index.Spares operations) :
    base.FindsAll := by
  refine findsAll_of_isIndexed hbase fun hfresh => ?_
  exact ⟨sound_of_run hrun hfresh, isKept_covers.of_run hrun h hfresh⟩

/-- Where the index has to be built anew, or nothing was put in front of an
entry with the same key, the last entry with some contents is found. -/
theorem findsLast_of_run (hrun : (ofCatalog catalog).run operations = base)
    (hbase : ∀ entry ∈ base.entries, entry.IsPlain)
    (h : base.fresh = false ∨ (ofCatalog catalog).RunsWithin Index.Outlasts operations) :
    base.FindsLast :=
  findsLast_of_leadsToLast hbase (isKept_latest.of_run hrun h)

/-! ## Merging -/

/-- Merging leaves the last entry with each contents, and no other one.  What
the base had stays in its order, and all else is taken from the base. -/
structure IsRightUnion (base : Store) (others : List Catalog) : Prop where
  last : IsLastOfEach (base.entries ++ others.flatMap Catalog.entries) (base.merge others).entries
  order : (base.entries.map Entry.contentKey).Sublist
    ((base.merge others).entries.map Entry.contentKey)
  language : (base.merge others).catalog.language = base.catalog.language
  sourceLanguage : (base.merge others).catalog.sourceLanguage = base.catalog.sourceLanguage
  dependencies : (base.merge others).catalog.dependencies = base.catalog.dependencies
  extras : (base.merge others).catalog.extras = base.catalog.extras
  locations : (base.merge others).catalog.locations = base.catalog.locations

variable {others : List Catalog}

theorem IsIndexed.isRightUnion (hindex : base.IsIndexed)
    (hbase : ∀ entry ∈ base.entries, entry.IsPlain)
    (hkeys : (base.entries.map Entry.contentKey).Nodup)
    (hothers : ∀ other ∈ others, ∀ entry ∈ other.entries, entry.IsPlain) :
    base.IsRightUnion others := by
  have hmerged := isOverlaid_merge hbase hindex hothers
  have hlast : IsLastOfEach (base.entries ++ others.flatMap Catalog.entries)
      (base.merge others).entries := by
    intro key
    have hfew := nodup_contentKey_iff.mp hkeys key
    rw [withContents_append, ← overlaid_of_length_le_one hfew]
    exact hmerged.contents key (.inl hfew)
  obtain ⟨entries, hcatalog⟩ := hmerged.catalog
  have hmerge : (base.merge others).catalog = { base.catalog with entries } := hcatalog
  refine ⟨hlast, hmerged.order, ?_, ?_, ?_, ?_, ?_⟩ <;> rw [hmerge]

/-- An entry that is not found stands beside itself when it is merged. -/
theorem not_isRightUnion_of_find_eq_none {known : Entry} (hknown : known ∈ base.entries)
    (hnone : (base.find known).1 = none) : ¬ base.IsRightUnion [{ entries := [known] }] := by
  intro hunion
  obtain ⟨front, rest, hfront, hinserted⟩ := exists_insertSorted base.refreshed known
  have hmerged : (base.merge [{ entries := [known] }]).entries = front ++ known :: rest := by
    rw [← hinserted, ← replace_of_locate_eq_none hnone]
    rfl
  have hkeys := hunion.last.nodup
  rw [hmerged, List.map_append, List.map_cons, List.nodup_middle, ← List.map_append, ← hfront,
    entries_refreshed] at hkeys
  exact (List.nodup_cons.mp hkeys).1 (List.mem_map_of_mem hknown)

/-- For entries without ids, and different ones in the base, merging is a
right-biased union exactly if the base finds what it has.  It does where its
index has to be built anew, and after a run that takes no key from a third
entry. -/
theorem isRightUnion_iff_findsAll (hrun : (ofCatalog catalog).run operations = base)
    (hbase : ∀ entry ∈ base.entries, entry.IsPlain)
    (hkeys : (base.entries.map Entry.contentKey).Nodup) :
    ((∀ others : List Catalog, (∀ other ∈ others, ∀ entry ∈ other.entries, entry.IsPlain) →
        base.IsRightUnion others) ↔ base.FindsAll)
      ∧ (base.fresh = false ∨ (ofCatalog catalog).RunsWithin Index.Spares operations →
          base.FindsAll) := by
  refine ⟨⟨?_, ?_⟩, findsAll_of_run hrun hbase⟩
  · intro hunion known hknown
    rw [Option.isSome_iff_ne_none]
    intro hnone
    refine not_isRightUnion_of_find_eq_none hknown hnone (hunion _ ?_)
    simpa using hbase known hknown
  · intro hfinds others hothers
    have hindex := isIndexed_of_findsAll (sound_of_run hrun) hbase hfinds
    exact hindex.isRightUnion hbase hkeys hothers

end

end Store

/-- Two entries of a file, and one without a place. -/
def menu : Catalog where
  entries := [
    { context := "C", source := "Open", file := some ⟨"a.cpp"⟩, line := 10 },
    { context := "C", source := "Close", file := some ⟨"a.cpp"⟩, line := 30 },
    { context := "C", source := "Help" }]
  language := "de"

/-- One of its entries is looked up, and translated. -/
def explaining : List Operation :=
  [.replace { context := "C", source := "Help", translations := ["Info"] }]

/-- New entries in the middle of the menu, and translations, one of which is
revised. -/
def additions : List Catalog :=
  [{ entries := [
      { context := "C", source := "Save", file := some ⟨"a.cpp"⟩, line := 20 },
      { context := "C", source := "Help", translations := ["Rat"] },
      { context := "C", source := "Open", file := some ⟨"a.cpp"⟩, line := 40 }]
     language := "fr" },
    { entries := [
      { context := "C", source := "Help", translations := ["Hilfe"] },
      { context := "C", source := "Save", translations := ["Sichern"] }] }]

theorem Store.isRightUnion_menu :
    (((ofCatalog menu).run explaining).merge additions).entries.map
          (fun e => (e.source, e.translations))
        = [("Open", []), ("Save", ["Sichern"]), ("Close", []), ("Help", ["Hilfe"])]
      ∧ ((ofCatalog menu).run explaining).fresh = true
      ∧ ((ofCatalog menu).run explaining).IsRightUnion additions := by
  have hspares : (ofCatalog menu).RunsWithin Index.Spares explaining :=
    ⟨spares_of_isPlain (isIndexed_ofCatalog menu) (by decide) (by decide), trivial⟩
  obtain ⟨hunion, hfinds⟩ := isRightUnion_iff_findsAll
    (rfl : (ofCatalog menu).run explaining = _) (by decide) (by decide)
  exact ⟨by decide, by decide, hunion.mpr (hfinds (.inr hspares)) additions (by decide)⟩

/-- Two entries with the same contents part, as one of them is renamed by its
id.  Its new contents are then translated without it. -/
def rewording : List Operation := [
  .append { context := "C", source := "Open", translations := ["Auf"] },
  .append { id := "close", context := "C", source := "Open" },
  .replace { id := "close", context := "C", source := "Close" },
  .replace { context := "C", source := "Close", translations := ["Zu"] }]

/-- A later translation. -/
def reopening : List Catalog :=
  [{ entries := [{ context := "C", source := "Open", translations := ["Aufmachen"] }] }]

/-- The entry that was left behind is hidden, and a later one does not take its
place. -/
theorem Store.not_isRightUnion_rewording :
    (∀ entry ∈ ((ofCatalog {}).run rewording).entries, entry.IsPlain)
      ∧ (((ofCatalog {}).run rewording).entries.map Entry.contentKey).Nodup
      ∧ (∀ other ∈ reopening, ∀ entry ∈ other.entries, entry.IsPlain)
      ∧ (((ofCatalog {}).run rewording).merge reopening).entries.map
          (fun e => (e.source, e.translations))
        = [("Open", ["Auf"]), ("Close", ["Zu"]), ("Open", ["Aufmachen"])]
      ∧ ¬ ((ofCatalog {}).run rewording).IsRightUnion reopening := by
  refine ⟨by decide, by decide, by decide, by decide, fun hunion => ?_⟩
  have hrepeated : ¬ ((((ofCatalog {}).run rewording).merge reopening).entries.map
      Entry.contentKey).Nodup := by
    decide
  exact hrepeated hunion.last.nodup

end MessageCatalog
