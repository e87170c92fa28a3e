/-
# `MessageCatalog.Proofs.Overlaying` — what is left when entries are brought in

Entries of other catalogs are brought in one by one, each in the place of an
entry with its contents or, if none is found, somewhere between the others:

    front ++ old ++ rest   →   front ++ entry :: rest

where `old` is that entry or nothing (`Store.exists_replace`).  A step has to
find the old entry, so this rests on the index that the store comes with.  It
must lead to entries rightly, and somewhere for all of them
(`Store.IsIndexed`).  Entries without ids cannot lose that again, since the
new entry has all the keys of the old one.

An index that was just built leads to the last one of several entries with
the same contents (`Index.Latest`), and then this one is the old entry.  So
of the entries with some contents, taken in their order, only the last one is
replaced, however many are brought in (`overlaid`):

    those of the base but the last one, and the last one brought in

Where the base has one such entry at most, it does not matter which one the
index leads to.
-/
import Mathlib.Data.List.Induction
import MessageCatalog.Proofs.SortedInsertion
import MessageCatalog.Proofs.StoreLookup

namespace MessageCatalog

/-! ## The last entry under a key -/

namespace Index

variable {index : Index} {entries : List Entry}

/-- Behind the entry that an index leads to, none is filed under the key that
was asked for. -/
def Latest (index : Index) (entries : List Entry) : Prop :=
  ∀ key position, index.position? key = some position →
    ∀ place entry, position < place → entries[place]? = some entry →
      entry.isFiledUnder key = false

/-- Behind a position, no entry is filed under a key of the given one. -/
def Outlasts (entries : List Entry) (position : Nat) (new : Entry) : Prop :=
  ∀ key, new.isFiledUnder key = true → ∀ place entry, position < place →
    entries[place]? = some entry → entry.isFiledUnder key = false

theorem Latest.append (h : index.Latest entries) (entry : Entry) :
    (index.put entries.length entry).Latest (entries ++ [entry]) := by
  intro key position hposition place known hbehind hknown
  rw [position?_put] at hposition
  have hinside := (List.getElem?_eq_some_iff.mp hknown).1
  rw [List.length_append, List.length_singleton] at hinside
  split at hposition
  · cases hposition
    omega
  · next hother =>
    rcases Nat.lt_succ_iff_lt_or_eq.mp hinside with hbefore | rfl
    · rw [List.getElem?_append_left hbefore] at hknown
      exact h key position hposition place known hbehind hknown
    · rw [List.getElem?_concat_length] at hknown
      cases hknown
      exact Bool.eq_false_iff.mpr hother

theorem Latest.rekey (h : index.Latest entries) {position : Nat} {new : Entry} (old : Entry)
    (houtlasts : Outlasts entries position new) :
    ((index.remove old).put position new).Latest (entries.set position new) := by
  intro key found hfound place known hbehind hknown
  rw [position?_put] at hfound
  split at hfound
  · next hfiled =>
    cases hfound
    rw [List.getElem?_set_ne (Nat.ne_of_lt hbehind)] at hknown
    exact houtlasts key hfiled place known hbehind hknown
  · next hother =>
    rw [position?_remove] at hfound
    split at hfound
    · cases hfound
    · by_cases hplace : position = place
      · subst hplace
        have hinside := (List.getElem?_eq_some_iff.mp hknown).1
        rw [List.length_set] at hinside
        rw [List.getElem?_set_self hinside] at hknown
        cases hknown
        exact Bool.eq_false_iff.mpr hother
      · rw [List.getElem?_set_ne hplace] at hknown
        exact h key found hfound place known hbehind hknown

theorem Latest.revise (h : index.Latest entries) {revised : List Entry}
    (hsame : revised.map Entry.isFiledUnder = entries.map Entry.isFiledUnder) :
    index.Latest revised := by
  intro key position hposition place known hbehind hknown
  have hplace : (entries[place]?).map Entry.isFiledUnder = some known.isFiledUnder := by
    rw [← List.getElem?_map, ← hsame, List.getElem?_map, hknown]
    rfl
  obtain ⟨entry, hentry, hkeys⟩ := Option.map_eq_some_iff.mp hplace
  rw [← hkeys]
  exact h key position hposition place entry hbehind hentry

theorem latest_of (entries : List Entry) : (Index.of entries).Latest entries := by
  refine putAll_induction (P := Latest) (fun _ _ entry h => h.append entry) entries {} [] ?_
  intro key position h
  rw [position?_empty] at h
  cases h

end Index

/-! ## The index of a store -/

namespace Store

/-- A fresh index leads rightly, and somewhere for all entries. -/
def IsIndexed (store : Store) : Prop :=
  store.fresh = true → store.index.Sound store.entries ∧ store.index.Covers store.entries

theorem isIndexed_ofCatalog (catalog : Catalog) : (ofCatalog catalog).IsIndexed := nofun

theorem isIndexed_refreshed {store : Store} (h : store.IsIndexed) :
    store.refreshed.index.Sound store.refreshed.entries
      ∧ store.refreshed.index.Covers store.refreshed.entries := by
  unfold refreshed
  split
  · next hfresh => exact h hfresh
  · exact ⟨Index.sound_of _, Index.covers_of _⟩

theorem isKept_latest : IsKept Index.Outlasts Index.Latest where
  refresh := Index.latest_of
  append _ _ entry h := h.append entry
  rekey _ _ _ old _ h houtlasts _ := h.rekey old houtlasts
  revise _ _ _ h hsame := h.revise hsame

/-- A fresh index leads to the last entry of those under a key. -/
def LeadsToLast (store : Store) : Prop := store.fresh = true → store.index.Latest store.entries

theorem latest_refreshed {store : Store} (h : store.LeadsToLast) :
    store.refreshed.index.Latest store.refreshed.entries := by
  unfold refreshed
  split
  · next hfresh => exact h hfresh
  · exact Index.latest_of _

/-! ## Bringing in an entry -/

variable {store : Store} {entry : Entry}

/-- An entry without an id is looked up by its contents. -/
theorem locate_of_isPlain (hentry : entry.IsPlain) :
    store.locate entry = store.index.position? (.content entry.contentKey) := by
  unfold locate
  rw [hentry.1]
  rfl

theorem isFiledUnder_of_isPlain {other : Entry} (hentry : entry.IsPlain) (hother : other.IsPlain)
    (hkey : entry.contentKey = other.contentKey) : entry.isFiledUnder = other.isFiledUnder :=
  Entry.isFiledUnder_eq hkey (hentry.1.trans hother.1.symm)

theorem isFiledUnder_contentKey (hentry : entry.IsPlain) :
    entry.isFiledUnder (.content entry.contentKey) = true := by
  refine Entry.isFiledUnder_content.mpr ⟨?_, rfl⟩
  unfold Entry.isPlaceholder
  rw [String.isEmpty_eq_false_iff.mpr hentry.2]
  rfl

/-- Among entries without ids, the one with the contents of another one is
found. -/
theorem exists_of_locate (hindex : store.index.Sound store.entries) {position : Nat}
    (hentry : entry.IsPlain) (hlocate : store.locate entry = some position) :
    ∃ old, store.entries[position]? = some old ∧ old.contentKey = entry.contentKey := by
  rw [locate_of_isPlain hentry] at hlocate
  obtain ⟨old, hold, hfiled⟩ := hindex _ _ hlocate
  exact ⟨old, hold, (Entry.isFiledUnder_content.mp hfiled).2⟩

theorem not_mem_of_locate_eq_none (hindex : store.index.Covers store.entries)
    (hplain : ∀ e ∈ store.entries, e.IsPlain) (hentry : entry.IsPlain)
    (hlocate : store.locate entry = none) : ∀ e ∈ store.entries, e.contentKey ≠ entry.contentKey := by
  intro e he hkey
  have hfiled : e.isFiledUnder (.content entry.contentKey) = true :=
    hkey ▸ isFiledUnder_contentKey (hplain e he)
  have hposition := hindex e he _ hfiled
  rw [← locate_of_isPlain hentry, hlocate] at hposition
  cases hposition

theorem insertIdx_eq_append {α : Type} (a : α) {xs : List α} {i : Nat} (h : i ≤ xs.length) :
    xs.insertIdx i a = xs.take i ++ a :: xs.drop i := by
  have hinsert := insertIdx_append_length a (xs.take i) (xs.drop i)
  rwa [List.take_append_drop, List.length_take_of_le h] at hinsert

/-- Wherever it belongs by its line, a new entry stands between the others. -/
theorem exists_insertSorted (store : Store) (entry : Entry) :
    ∃ front rest, store.entries = front ++ rest
      ∧ (store.insertSorted entry).entries = front ++ entry :: rest := by
  have hinserted := (entries_insert store (sortedPosition store.entries entry) entry).trans
    (insertIdx_eq_append entry (Nat.min_le_right _ _))
  exact ⟨_, _, (List.take_append_drop _ _).symm, hinserted⟩

theorem replace_of_locate_eq_none (h : store.refreshed.locate entry = none) :
    store.replace entry = store.refreshed.insertSorted entry := by
  unfold replace find
  rw [h]

theorem replace_of_locate_eq_some {position : Nat} {old : Entry}
    (h : store.refreshed.locate entry = some position)
    (hold : store.refreshed.entries[position]? = some old) :
    store.replace entry = store.refreshed.rekeyed position old entry := by
  unfold replace find
  rw [h]
  dsimp only
  rw [hold]
  rfl

/-- An entry without an id is filed under its contents only. -/
theorem eq_content_of_isFiledUnder (hentry : entry.IsPlain) {key : IndexKey}
    (h : entry.isFiledUnder key = true) : key = .content entry.contentKey := by
  cases key with
  | content key => rw [(Entry.isFiledUnder_content.mp h).2]
  | id id => exact absurd hentry.1 (Entry.isFiledUnder_id.mp h).1
  | context context =>
      have hplaceholder := (Entry.isFiledUnder_context.mp h).1
      rw [Entry.isPlaceholder, Bool.and_eq_true, String.isEmpty_iff] at hplaceholder
      exact absurd hplaceholder.1 hentry.2

/-- Behind the entry that is found for another one, none has its contents. -/
theorem contentKey_ne_of_locate {position : Nat} (hlatest : store.index.Latest store.entries)
    (hplain : ∀ e ∈ store.entries, e.IsPlain) (hentry : entry.IsPlain)
    (hlocate : store.locate entry = some position) :
    ∀ place e, position < place → store.entries[place]? = some e →
      e.contentKey ≠ entry.contentKey := by
  intro place e hbehind he hkey
  rw [locate_of_isPlain hentry] at hlocate
  have hother := hlatest _ position hlocate place e hbehind he
  rw [← hkey, isFiledUnder_contentKey (hplain e (List.mem_of_getElem? he))] at hother
  cases hother

/-- An entry stands in the place of one with its contents, or between the
others if there is none.  Where the index leads to the last entry under a key,
none with its contents stands behind it. -/
theorem exists_replace (hstore : store.IsIndexed) (hplain : ∀ e ∈ store.entries, e.IsPlain)
    (hentry : entry.IsPlain) :
    ∃ front, ∃ old : Option Entry, ∃ rest, store.entries = front ++ (old.toList ++ rest)
      ∧ (store.replace entry).entries = front ++ entry :: rest
      ∧ (∀ e ∈ old, e.contentKey = entry.contentKey)
      ∧ (old = none → ∀ e ∈ front ++ rest, e.contentKey ≠ entry.contentKey)
      ∧ (store.LeadsToLast → ∀ e ∈ rest, e.contentKey ≠ entry.contentKey) := by
  obtain ⟨hsound, hcovers⟩ := isIndexed_refreshed hstore
  have hentries := entries_refreshed store
  cases hlocate : store.refreshed.locate entry with
  | none =>
      obtain ⟨front, rest, hfront, hinserted⟩ := exists_insertSorted store.refreshed entry
      have hnone := not_mem_of_locate_eq_none hcovers (hentries ▸ hplain) hentry hlocate
      rw [hfront] at hnone
      rw [replace_of_locate_eq_none hlocate]
      refine ⟨front, none, rest, hentries.symm.trans hfront, hinserted, nofun, fun _ => hnone, ?_⟩
      exact fun _ e he => hnone e (List.mem_append_right _ he)
  | some position =>
      obtain ⟨old, hold, hkey⟩ := exists_of_locate hsound hentry hlocate
      obtain ⟨hinside, rfl⟩ := List.getElem?_eq_some_iff.mp hold
      obtain ⟨front, rest, hsplit, hlength, hset⟩ := @List.exists_of_set _ position entry _ hinside
      rw [replace_of_locate_eq_some hlocate hold]
      refine ⟨front, some _, rest, hentries.symm.trans hsplit, hset, ?_, nofun, ?_⟩
      · rintro _ ⟨⟩
        exact hkey
      · intro hlast e he
        obtain ⟨place, hplace⟩ := List.mem_iff_getElem?.mp he
        refine contentKey_ne_of_locate (latest_refreshed hlast) (hentries ▸ hplain) hentry hlocate
          (position + (place + 1)) e (by omega) ?_
        have hrest : position + (place + 1) - front.length = place + 1 := by omega
        rw [hsplit, List.getElem?_append_right (by omega), hrest, List.getElem?_cons_succ]
        exact hplace

/-- Replacing adds nothing but the new entry. -/
theorem mem_of_mem_replace {known : Entry} (h : known ∈ (store.replace entry).entries) :
    known ∈ store.entries ∨ known = entry := by
  rw [← entries_refreshed store]
  cases hlocate : store.refreshed.locate entry with
  | none =>
      obtain ⟨front, rest, hfront, hinserted⟩ := exists_insertSorted store.refreshed entry
      rw [replace_of_locate_eq_none hlocate, hinserted, List.mem_append, List.mem_cons] at h
      rw [hfront, List.mem_append]
      rcases h with hmem | hsame | hmem
      · exact .inl (.inl hmem)
      · exact .inr hsame
      · exact .inl (.inr hmem)
  | some position =>
      cases hold : store.refreshed.entries[position]? with
      | none =>
          unfold replace find at h
          simp only [hlocate, hold] at h
          exact .inl h
      | some old =>
          rw [replace_of_locate_eq_some hlocate hold] at h
          exact List.mem_or_eq_of_mem_set h

/-- The new entry is filed under all keys of the one that it replaces. -/
theorem spares_of_isPlain (hstore : store.IsIndexed) (hplain : ∀ e ∈ store.entries, e.IsPlain)
    (hentry : entry.IsPlain) : (Operation.replace entry).IsWithin Index.Spares store := by
  intro position hposition place old third key _ hold _ hfiled _
  obtain ⟨hsound, -⟩ := isIndexed_refreshed hstore
  obtain ⟨found, hfound, hkey⟩ := exists_of_locate hsound hentry hposition
  rw [entries_refreshed, hold] at hfound
  cases hfound
  rwa [isFiledUnder_of_isPlain hentry (hplain _ (List.mem_of_getElem? hold)) hkey.symm]

theorem isIndexed_replace (hstore : store.IsIndexed) (hplain : ∀ e ∈ store.entries, e.IsPlain)
    (hentry : entry.IsPlain) : (store.replace entry).IsIndexed := by
  have hspares := spares_of_isPlain hstore hplain hentry
  intro hfresh
  exact ⟨isKept_sound.steps (steps_replace fun _ _ => trivial) (fun h => (hstore h).1) hfresh,
    isKept_covers.steps (steps_replace hspares) (fun h => (hstore h).2) hfresh⟩

theorem leadsToLast_replace (hstore : store.LeadsToLast) (hplain : ∀ e ∈ store.entries, e.IsPlain)
    (hentry : entry.IsPlain) : (store.replace entry).LeadsToLast := by
  refine isKept_latest.steps (steps_replace ?_) hstore
  intro position hposition key hfiled place known hbehind hknown
  rw [← entries_refreshed store] at hplain hknown
  have hne := contentKey_ne_of_locate (latest_refreshed hstore) hplain hentry hposition place known
    hbehind hknown
  refine Bool.eq_false_iff.mpr fun hsame => hne ?_
  have hkey := eq_content_of_isFiledUnder hentry hfiled
  have hknownKey := eq_content_of_isFiledUnder (hplain known (List.mem_of_getElem? hknown)) hsame
  exact (IndexKey.content.inj (hkey.symm.trans hknownKey)).symm

/-- Replacing changes the entries of a catalog and nothing else. -/
theorem exists_catalog_replace (store : Store) (entry : Entry) :
    ∃ entries, (store.replace entry).catalog = { store.catalog with entries } := by
  have hcatalog : store.refreshed.catalog = store.catalog := by
    unfold refreshed
    split
    · rfl
    · rfl
  rw [← hcatalog]
  unfold replace find
  cases store.refreshed.locate entry with
  | none =>
      dsimp only [insertSorted, insert]
      split
      · exact ⟨_, rfl⟩
      · exact ⟨_, rfl⟩
  | some position =>
      dsimp only
      cases store.refreshed.entries[position]? with
      | none => exact ⟨_, rfl⟩
      | some old => exact ⟨_, rfl⟩

end Store

/-! ## The entries with some contents -/

/-- What becomes of some entries with the same contents when others with
these contents are brought in, of which the last one is given. -/
def overlaid (entries : List Entry) : Option Entry → List Entry
  | some last => entries.dropLast ++ [last]
  | none => entries

/-- The entries with some contents. -/
def withContents (key : ContentKey) (entries : List Entry) : List Entry :=
  entries.filter fun e => e.contentKey = key

theorem overlaid_overlaid (entries : List Entry) (earlier : Option Entry) (last : Entry) :
    overlaid (overlaid entries earlier) (some last) = overlaid entries (some last) := by
  cases earlier with
  | none => rfl
  | some earlier => simp [overlaid]

theorem length_overlaid_le_one {entries : List Entry} (h : entries.length ≤ 1)
    (last : Option Entry) : (overlaid entries last).length ≤ 1 := by
  cases last with
  | none => exact h
  | some last =>
      rw [overlaid, List.length_append, List.length_dropLast, List.length_singleton]
      omega

section

variable {key : ContentKey}

theorem withContents_append (front rest : List Entry) :
    withContents key (front ++ rest) = withContents key front ++ withContents key rest :=
  List.filter_append _ _

theorem withContents_eq_nil {entries : List Entry} (h : ∀ e ∈ entries, e.contentKey ≠ key) :
    withContents key entries = [] := by
  refine List.filter_eq_nil_iff.mpr fun e he => ?_
  rw [decide_eq_true_eq]
  exact h e he

theorem withContents_cons_self {entry : Entry} (h : entry.contentKey = key) (rest : List Entry) :
    withContents key (entry :: rest) = entry :: withContents key rest :=
  List.filter_cons_of_pos (decide_eq_true h)

theorem withContents_cons_of_ne {entry : Entry} (h : entry.contentKey ≠ key) (rest : List Entry) :
    withContents key (entry :: rest) = withContents key rest :=
  List.filter_cons_of_neg (by simpa using h)

theorem withContents_ne_nil_iff {entries : List Entry} :
    withContents key entries ≠ [] ↔ key ∈ entries.map Entry.contentKey := by
  simp [withContents, List.filter_eq_nil_iff]

theorem withContents_concat (entries : List Entry) (entry : Entry) :
    (withContents key (entries ++ [entry])).getLast?
      = if entry.contentKey = key then some entry else (withContents key entries).getLast? := by
  rw [withContents_append]
  split
  · next h => rw [withContents_cons_self h]; simp [withContents]
  · next h => rw [withContents_cons_of_ne h]; simp [withContents]

section

variable {front rest : List Entry} {old : Option Entry} {entry : Entry}

/-- What is put in the place of the last entry with its contents, or is the
first one to have them. -/
theorem withContents_replaced (hold : ∀ e ∈ old, e.contentKey = entry.contentKey)
    (hfront : old = none → ∀ e ∈ front, e.contentKey ≠ entry.contentKey)
    (hrest : withContents entry.contentKey rest = []) :
    withContents entry.contentKey (front ++ entry :: rest)
      = overlaid (withContents entry.contentKey (front ++ (old.toList ++ rest))) (some entry) := by
  rw [withContents_append, withContents_cons_self rfl, withContents_append, withContents_append,
    hrest, List.append_nil]
  cases old with
  | none =>
      rw [withContents_eq_nil (hfront rfl)]
      rfl
  | some old =>
      have hgives : withContents entry.contentKey (some old).toList = [old] :=
        withContents_cons_self (hold old rfl) []
      rw [hgives, overlaid, List.dropLast_concat]

/-- Entries with other contents are not touched. -/
theorem withContents_replaced_of_ne (hold : ∀ e ∈ old, e.contentKey = entry.contentKey)
    (hne : entry.contentKey ≠ key) :
    withContents key (front ++ entry :: rest)
      = withContents key (front ++ (old.toList ++ rest)) := by
  have hgone : withContents key old.toList = [] := by
    refine withContents_eq_nil fun e he => ?_
    rw [hold e (Option.mem_toList.mp he)]
    exact hne
  rw [withContents_append, withContents_append, withContents_append, withContents_cons_of_ne hne,
    hgone, List.nil_append]

/-- Of one entry with some contents at most, none is left behind the one that
gives way. -/
theorem withContents_rest_eq_nil (hold : ∀ e ∈ old, e.contentKey = entry.contentKey)
    (hnew : old = none → ∀ e ∈ front ++ rest, e.contentKey ≠ entry.contentKey)
    (hfew : (withContents entry.contentKey (front ++ (old.toList ++ rest))).length ≤ 1) :
    withContents entry.contentKey rest = [] := by
  cases old with
  | none => exact withContents_eq_nil fun e he => hnew rfl e (List.mem_append_right _ he)
  | some old =>
      rw [withContents_append, List.length_append, Option.toList_some, List.singleton_append,
        withContents_cons_self (hold old rfl), List.length_cons] at hfew
      exact List.length_eq_zero_iff.mp (by omega)

end

end

/-! ## Bringing in all entries -/

/-- What a store has become of `base` after some entries were brought in. -/
structure Store.IsOverlaid (base : Store) (incoming : List Entry) (store : Store) : Prop where
  plain : ∀ entry ∈ store.entries, entry.IsPlain
  indexed : store.IsIndexed
  leadsToLast : base.LeadsToLast → store.LeadsToLast
  contents : ∀ key, (withContents key base.entries).length ≤ 1 ∨ base.LeadsToLast →
    withContents key store.entries
      = overlaid (withContents key base.entries) (withContents key incoming).getLast?
  order : (base.entries.map Entry.contentKey).Sublist (store.entries.map Entry.contentKey)
  catalog : ∃ entries, store.catalog = { base.catalog with entries }

namespace Store.IsOverlaid

variable {base store : Store} {incoming : List Entry}

theorem replace (h : IsOverlaid base incoming store) {entry : Entry} (hentry : entry.IsPlain) :
    IsOverlaid base (incoming ++ [entry]) (store.replace entry) := by
  obtain ⟨front, old, rest, hentries, hreplaced, hold, hnew, hlast⟩ :=
    exists_replace h.indexed h.plain hentry
  constructor
  case plain =>
    intro e he
    rcases mem_of_mem_replace he with hmem | rfl
    · exact h.plain e hmem
    · exact hentry
  case indexed => exact isIndexed_replace h.indexed h.plain hentry
  case leadsToLast => exact fun hbase => leadsToLast_replace (h.leadsToLast hbase) h.plain hentry
  case contents =>
    intro key hkey
    have hbefore := h.contents key hkey
    rw [hentries] at hbefore
    rw [hreplaced, withContents_concat]
    by_cases hsame : entry.contentKey = key
    · subst hsame
      have hrest : withContents entry.contentKey rest = [] := by
        rcases hkey with hfew | hbase
        · refine withContents_rest_eq_nil hold hnew ?_
          rw [hbefore]
          exact length_overlaid_le_one hfew _
        · exact withContents_eq_nil (hlast (h.leadsToLast hbase))
      have hfront (hnone : old = none) : ∀ e ∈ front, e.contentKey ≠ entry.contentKey :=
        fun e he => hnew hnone e (List.mem_append_left _ he)
      rw [withContents_replaced hold hfront hrest, hbefore, overlaid_overlaid, if_pos rfl]
    · rw [withContents_replaced_of_ne hold hsame, hbefore, if_neg hsame]
  case order =>
    refine h.order.trans ?_
    rw [hentries, hreplaced]
    cases old with
    | none => exact ((List.sublist_cons_self entry rest).append_left front).map _
    | some old =>
        have hsame : (front ++ ([old] ++ rest)).map Entry.contentKey
            = (front ++ entry :: rest).map Entry.contentKey := by
          simp [hold old rfl]
        exact hsame ▸ List.Sublist.refl _
  case catalog =>
    obtain ⟨entries, hcatalog⟩ := h.catalog
    obtain ⟨replaced, hreplacedCatalog⟩ := exists_catalog_replace store entry
    exact ⟨replaced, by rw [hreplacedCatalog, hcatalog]⟩

end Store.IsOverlaid

/-- Entries without ids that are brought in one by one.  It does not matter
how fresh the index of the base is, as long as it is right. -/
theorem Store.isOverlaid_foldl {base : Store} (hbase : ∀ entry ∈ base.entries, entry.IsPlain)
    (hindex : base.IsIndexed) {incoming : List Entry}
    (hincoming : ∀ entry ∈ incoming, entry.IsPlain) :
    IsOverlaid base incoming (incoming.foldl Store.replace base) := by
  induction incoming using List.reverseRecOn with
  | nil => exact ⟨hbase, hindex, id, fun _ _ => rfl, .refl _, base.entries, rfl⟩
  | append_singleton incoming entry ih =>
      rw [List.foldl_append]
      refine (ih fun e he => hincoming e (List.mem_append_left _ he)).replace (hincoming entry ?_)
      exact List.mem_append_right _ List.mem_cons_self

theorem Store.isOverlaid_merge {base : Store} {others : List Catalog}
    (hbase : ∀ entry ∈ base.entries, entry.IsPlain) (hindex : base.IsIndexed)
    (hothers : ∀ other ∈ others, ∀ entry ∈ other.entries, entry.IsPlain) :
    IsOverlaid base (others.flatMap Catalog.entries) (base.merge others) := by
  refine isOverlaid_foldl hbase hindex ?_
  intro entry hentry
  obtain ⟨other, hother, hmem⟩ := List.mem_flatMap.mp hentry
  exact hothers other hother entry hmem

/-- All that is merged comes from the base or from one of the other catalogs. -/
theorem Store.mem_of_mem_merge {base : Store} {others : List Catalog} {entry : Entry}
    (h : entry ∈ (base.merge others).entries) :
    entry ∈ base.entries ∨ ∃ other ∈ others, entry ∈ other.entries := by
  rw [← List.mem_flatMap]
  unfold merge at h
  generalize others.flatMap Catalog.entries = incoming at h ⊢
  induction incoming using List.reverseRecOn with
  | nil => exact .inl h
  | append_singleton incoming last ih =>
      rw [List.foldl_append] at h
      rw [List.mem_append, List.mem_singleton]
      rcases mem_of_mem_replace h with hmem | hlast
      · exact (ih hmem).imp_right .inl
      · exact .inr (.inr hlast)

end MessageCatalog
