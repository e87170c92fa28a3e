/-
# `MessageCatalog.Proofs.Folding` — what folding duplicates leaves

Folding goes over the entries once.  A step either keeps an entry as a new
survivor or has a survivor take it in (`foldEntry_cases`), and a survivor
that took in an entry is marked for good.  So where no survivor is marked
nothing was folded, and the entries are what they were.

Entries that have a source text but no id are duplicates exactly when they
have the same contents.  Among such entries the survivor of some contents is
known in full (`leftOf`):

    the first entry with the contents, translated as the first of the
    entries with these contents that is translated at all
-/
import Mathlib.Data.List.Induction
import Mathlib.Data.List.Nodup
import MessageCatalog.Catalog.Duplicates

namespace MessageCatalog

/-! ## Steps -/

/-- The survivor took in an entry. -/
def Survivor.isMarked (survivor : Survivor) : Bool := survivor.byId || survivor.byContents

theorem Survivor.isMarked_absorb (survivor : Survivor) (kind : DuplicateKind) (duplicate : Entry) :
    (survivor.absorb kind duplicate).isMarked = true := by
  cases kind with
  | id => rfl
  | contents => exact Bool.or_true _

theorem lt_of_findIdx? {kept : List Survivor} {isIt : Survivor → Bool} {position : Nat}
    (h : kept.findIdx? isIt = some position) : position < kept.length :=
  (List.findIdx?_eq_some_iff_getElem.mp h).1

/-- The entry is a duplicate of a survivor that there is. -/
theorem lt_of_survivorOf {kept : List Survivor} {entry : Entry} {position : Nat}
    {kind : DuplicateKind} (h : survivorOf kept entry = some (position, kind)) :
    position < kept.length := by
  simp only [survivorOf] at h
  split at h
  · next found hid =>
    split at hid
    · cases hid
    · simp only [Option.some.injEq, Prod.mk.injEq] at h
      exact h.1 ▸ lt_of_findIdx? hid
  · split at h
    · cases h
    · next found hcontents =>
      split at h
      · simp only [Option.some.injEq, Prod.mk.injEq] at h
        exact h.1 ▸ lt_of_findIdx? hcontents
      · cases h

/-- A step keeps the entry, or has a survivor take it in. -/
theorem foldEntry_cases (kept : List Survivor) (entry : Entry) :
    (survivorOf kept entry = none ∧ foldEntry kept entry = kept ++ [⟨entry, false, false⟩])
      ∨ ∃ position kind survivor, survivorOf kept entry = some (position, kind)
          ∧ kept[position]? = some survivor
          ∧ foldEntry kept entry = kept.set position (survivor.absorb kind entry) := by
  unfold foldEntry
  cases h : survivorOf kept entry with
  | none => exact .inl ⟨rfl, rfl⟩
  | some found =>
      obtain ⟨position, kind⟩ := found
      have hsurvivor := List.getElem?_eq_getElem (lt_of_survivorOf h)
      refine .inr ⟨position, kind, _, rfl, hsurvivor, ?_⟩
      simp only [List.modify_eq_set_getElem?, hsurvivor]
      rfl

theorem survivors_append_singleton (entries : List Entry) (entry : Entry) :
    survivors (entries ++ [entry]) = foldEntry (survivors entries) entry := by
  rw [survivors, List.foldl_append]
  rfl

/-! ## Where nothing was folded -/

theorem exists_isMarked_set {kept : List Survivor} {position : Nat} {survivor : Survivor}
    (h : kept[position]? = some survivor) (kind : DuplicateKind) (entry : Entry) :
    ∃ s ∈ kept.set position (survivor.absorb kind entry), s.isMarked = true := by
  have hinside := (List.getElem?_eq_some_iff.mp h).1
  refine ⟨survivor.absorb kind entry, ?_, Survivor.isMarked_absorb _ _ _⟩
  exact List.mem_of_getElem? (List.getElem?_set_self hinside)

theorem exists_isMarked_foldEntry {kept : List Survivor} (h : ∃ s ∈ kept, s.isMarked = true)
    (entry : Entry) : ∃ s ∈ foldEntry kept entry, s.isMarked = true := by
  obtain ⟨s, hs, hmarked⟩ := h
  rcases foldEntry_cases kept entry with ⟨-, heq⟩ | ⟨_, kind, _, -, hsurvivor, heq⟩
  · rw [heq]
    exact ⟨s, List.mem_append_left _ hs, hmarked⟩
  · rw [heq]
    exact exists_isMarked_set hsurvivor kind entry

theorem exists_isMarked_foldl (entries : List Entry) :
    ∀ kept : List Survivor, (∃ s ∈ kept, s.isMarked = true) →
      ∃ s ∈ entries.foldl foldEntry kept, s.isMarked = true := by
  induction entries with
  | nil => exact fun _ h => h
  | cons entry entries ih =>
      intro kept h
      exact ih _ (exists_isMarked_foldEntry h entry)

/-- Without a mark every entry is a survivor. -/
theorem foldl_foldEntry_of_unmarked (entries : List Entry) :
    ∀ kept : List Survivor, (∀ s ∈ entries.foldl foldEntry kept, s.isMarked = false) →
      entries.foldl foldEntry kept = kept ++ entries.map fun entry => ⟨entry, false, false⟩ := by
  induction entries with
  | nil =>
      intro kept _
      exact (List.append_nil kept).symm
  | cons entry entries ih =>
      intro kept h
      rcases foldEntry_cases kept entry with ⟨-, heq⟩ | ⟨_, kind, _, -, hsurvivor, heq⟩
      · rw [List.foldl_cons, heq] at h ⊢
        rw [ih _ h, List.append_assoc]
        rfl
      · -- the step marked a survivor, and the mark would still be there
        rw [List.foldl_cons, heq] at h
        obtain ⟨s, hs, hmarked⟩ :=
          exists_isMarked_foldl entries _ (exists_isMarked_set hsurvivor kind entry)
        rw [h s hs] at hmarked
        cases hmarked

theorem positionsOf_eq_nil {isMember : Survivor → Bool} {kept : List Survivor}
    (h : positionsOf isMember kept = []) : ∀ s ∈ kept, isMember s = false := by
  intro s hs
  obtain ⟨position, hposition⟩ := List.mem_iff_getElem?.mp hs
  unfold positionsOf at h
  have hnone := List.filter_eq_nil_iff.mp (List.map_eq_nil_iff.mp h) (s, position)
    (List.mk_mem_zipIdx_iff_getElem?.mpr hposition)
  exact Bool.eq_false_iff.mpr hnone

/-- Where no duplicates are reported, the catalog is what it was. -/
theorem Catalog.foldDuplicates_of_isEmpty {catalog : Catalog}
    (h : catalog.foldDuplicates.2.isEmpty = true) : catalog.foldDuplicates.1 = catalog := by
  obtain ⟨hid, hcontents⟩ := Bool.and_eq_true_iff.mp h
  have hunmarked : ∀ s ∈ survivors catalog.entries, s.isMarked = false := by
    intro s hs
    have h₁ := positionsOf_eq_nil (List.isEmpty_iff.mp hid) s hs
    have h₂ := positionsOf_eq_nil (List.isEmpty_iff.mp hcontents) s hs
    rw [Survivor.isMarked, h₁, h₂]
    rfl
  have hkept : survivors catalog.entries = catalog.entries.map fun entry => ⟨entry, false, false⟩ :=
    foldl_foldEntry_of_unmarked catalog.entries [] hunmarked
  have hentries : (survivors catalog.entries).map Survivor.entry = catalog.entries := by
    rw [hkept, List.map_map]
    exact List.map_id _
  simp only [Catalog.foldDuplicates, hentries]

/-! ## Plain entries -/

/-- The entry has a source text, and no id. -/
def Entry.IsPlain (entry : Entry) : Prop := entry.id = "" ∧ entry.source ≠ ""

instance (entry : Entry) : Decidable entry.IsPlain := inferInstanceAs (Decidable (_ ∧ _))

/-- The entry with the translations of another one, if only that one is
translated. -/
def Entry.translatedBy (entry donor : Entry) : Entry :=
  if !entry.isTranslated && donor.isTranslated then
    { entry with translations := donor.translations }
  else entry

/-- What is left of the entries with some contents. -/
def leftOf (entries : List Entry) (key : ContentKey) : Option Entry :=
  (entries.find? fun e => e.contentKey == key).map fun first =>
    match entries.find? fun e => e.contentKey == key && e.isTranslated with
    | some donor => { first with translations := donor.translations }
    | none => first

namespace Entry

theorem contentKey_translatedBy (entry donor : Entry) :
    (entry.translatedBy donor).contentKey = entry.contentKey := by
  unfold translatedBy
  split
  · rfl
  · rfl

theorem isPlain_translatedBy {entry : Entry} (h : entry.IsPlain) (donor : Entry) :
    (entry.translatedBy donor).IsPlain := by
  unfold translatedBy
  split
  · exact h
  · exact h

theorem translatedBy_of_isTranslated {entry : Entry} (h : entry.isTranslated = true)
    (donor : Entry) : entry.translatedBy donor = entry := by
  unfold translatedBy
  rw [h]
  rfl

theorem duplicateKey_eq_iff {a b : Entry} (ha : a.IsPlain) (hb : b.IsPlain) :
    a.duplicateKey = b.duplicateKey ↔ a.contentKey = b.contentKey := by
  simp [duplicateKey, contentKey, ha.2, hb.2]

end Entry

theorem entry_absorb {survivor : Survivor} {duplicate : Entry} (hsurvivor : survivor.entry.IsPlain)
    (hduplicate : duplicate.IsPlain) :
    (survivor.absorb .contents duplicate).entry = survivor.entry.translatedBy duplicate := by
  have hid : { survivor.entry with id := duplicate.id } = survivor.entry := by
    rw [hduplicate.1, ← hsurvivor.1]
  simp only [Survivor.absorb, hid, ite_self]
  rfl

section

variable {α : Type} {items : List α}

theorem findIdx?_congr {p q : α → Bool} (h : ∀ item ∈ items, p item = q item) :
    items.findIdx? p = items.findIdx? q := by
  induction items with
  | nil => rfl
  | cons item items ih =>
      rw [List.findIdx?_cons, List.findIdx?_cons, h item List.mem_cons_self,
        ih fun other hother => h other (List.mem_cons_of_mem _ hother)]

/-- What is put in the place of the first item found is found in its turn. -/
theorem find?_set_of_findIdx? {p : α → Bool} {item : α} (hitem : p item = true) :
    ∀ {position : Nat}, items.findIdx? p = some position →
      (items.set position item).find? p = some item := by
  induction items with
  | nil =>
      intro position h
      cases h
  | cons head items ih =>
      intro position h
      rw [List.findIdx?_cons] at h
      split at h
      · cases h
        exact List.find?_cons_of_pos hitem
      · next hhead =>
        obtain ⟨place, hplace, rfl⟩ := Option.map_eq_some_iff.mp h
        rw [List.set_cons_succ, List.find?_cons_of_neg hhead]
        exact ih hplace

/-- Nothing changes for a search that passes over an item and over what is
put in its place. -/
theorem find?_set_of_not {p : α → Bool} {old new : α} (hold : p old = false)
    (hnew : p new = false) :
    ∀ {position : Nat}, items[position]? = some old →
      (items.set position new).find? p = items.find? p := by
  induction items with
  | nil =>
      intro position h
      cases h
  | cons head items ih =>
      intro position h
      cases position with
      | zero =>
          cases h
          rw [List.set_cons_zero, List.find?_cons, List.find?_cons, hnew, hold]
      | succ position => rw [List.set_cons_succ, List.find?_cons, List.find?_cons, ih h]

end

theorem survivorOf_of_isPlain {kept : List Survivor} (hkept : ∀ s ∈ kept, s.entry.IsPlain)
    {entry : Entry} (hentry : entry.IsPlain) :
    survivorOf kept entry
      = (kept.findIdx? fun s => s.entry.contentKey == entry.contentKey).map
          fun position => (position, .contents) := by
  have hid : entry.id.isEmpty = true := String.isEmpty_iff.mpr hentry.1
  have hsame : (kept.findIdx? fun s => s.entry.duplicateKey == entry.duplicateKey)
      = kept.findIdx? fun s => s.entry.contentKey == entry.contentKey := by
    refine findIdx?_congr ?_
    intro s hs
    rw [Bool.eq_iff_iff, beq_iff_eq, beq_iff_eq]
    exact Entry.duplicateKey_eq_iff (hkept s hs) hentry
  simp only [survivorOf, hid, hsame]
  cases kept.findIdx? fun s => s.entry.contentKey == entry.contentKey with
  | none => rfl
  | some position => rfl

/-- Some entries are what folding others leaves: one for all the contents
that there are. -/
structure IsLeftOf (kept entries : List Entry) : Prop where
  plain : ∀ entry ∈ kept, entry.IsPlain
  nodup : (kept.map Entry.contentKey).Nodup
  find : ∀ key, (kept.find? fun e => e.contentKey == key) = leftOf entries key

/-- A plain entry is new, or the entry with its contents takes it in. -/
theorem foldEntry_of_isPlain {kept : List Survivor}
    (hkept : ∀ e ∈ kept.map Survivor.entry, e.IsPlain) {entry : Entry} (hentry : entry.IsPlain) :
    (((kept.map Survivor.entry).findIdx? fun e => e.contentKey == entry.contentKey) = none
        ∧ (foldEntry kept entry).map Survivor.entry = kept.map Survivor.entry ++ [entry])
      ∨ ∃ position known,
        ((kept.map Survivor.entry).findIdx? fun e => e.contentKey == entry.contentKey)
            = some position
          ∧ (kept.map Survivor.entry)[position]? = some known
          ∧ (foldEntry kept entry).map Survivor.entry
            = (kept.map Survivor.entry).set position (known.translatedBy entry) := by
  have hplain : ∀ s ∈ kept, s.entry.IsPlain := fun s hs => hkept _ (List.mem_map_of_mem hs)
  have hsurvivor := survivorOf_of_isPlain hplain hentry
  have hindex : ((kept.map Survivor.entry).findIdx? fun e => e.contentKey == entry.contentKey)
      = kept.findIdx? fun s => s.entry.contentKey == entry.contentKey := List.findIdx?_map
  rw [hindex]
  rcases foldEntry_cases kept entry with ⟨hnone, heq⟩ | ⟨position, kind, survivor, hsome, hget, heq⟩
  · rw [hnone] at hsurvivor
    refine .inl ⟨Option.map_eq_none_iff.mp hsurvivor.symm, ?_⟩
    rw [heq, List.map_append]
    rfl
  · rw [hsome] at hsurvivor
    obtain ⟨place, hplace, hsame⟩ := Option.map_eq_some_iff.mp hsurvivor.symm
    cases hsame
    refine .inr ⟨position, survivor.entry, hplace, ?_, ?_⟩
    · rw [List.getElem?_map, hget]
      rfl
    · rw [heq, List.map_set, entry_absorb (hplain survivor (List.mem_of_getElem? hget)) hentry]

theorem contentKey_of_leftOf {entries : List Entry} {key : ContentKey} {left : Entry}
    (h : leftOf entries key = some left) : left.contentKey = key := by
  obtain ⟨first, hfirst, rfl⟩ := Option.map_eq_some_iff.mp h
  have hkey := List.find?_some hfirst
  rw [beq_iff_eq] at hkey
  split
  · exact hkey
  · exact hkey

theorem leftOf_append_of_ne (entries : List Entry) {entry : Entry} {key : ContentKey}
    (h : entry.contentKey ≠ key) : leftOf (entries ++ [entry]) key = leftOf entries key := by
  have hbeq : (entry.contentKey == key) = false := beq_eq_false_iff_ne.mpr h
  simp [leftOf, List.find?_append, hbeq]

/-- Of the contents of a translated entry something is left: the first entry
with them, translated as the first that is. -/
theorem exists_leftOf {entries : List Entry} {entry : Entry} (hentry : entry ∈ entries)
    (htranslated : entry.isTranslated = true) :
    ∃ first donor, (entries.find? fun e => e.contentKey == entry.contentKey) = some first
      ∧ (entries.find? fun e => e.contentKey == entry.contentKey && e.isTranslated) = some donor
      ∧ leftOf entries entry.contentKey
          = some { first with translations := donor.translations } := by
  have hfirst : (entries.find? fun e => e.contentKey == entry.contentKey).isSome = true :=
    List.find?_isSome.mpr ⟨entry, hentry, beq_self_eq_true _⟩
  have hdonor : (entries.find? fun e =>
      e.contentKey == entry.contentKey && e.isTranslated).isSome = true := by
    refine List.find?_isSome.mpr ⟨entry, hentry, ?_⟩
    rw [htranslated, beq_self_eq_true]
    rfl
  obtain ⟨first, hfirst⟩ := Option.isSome_iff_exists.mp hfirst
  obtain ⟨donor, hdonor⟩ := Option.isSome_iff_exists.mp hdonor
  refine ⟨first, donor, hfirst, hdonor, ?_⟩
  rw [leftOf, hfirst, hdonor]
  rfl

/-- One more entry is left where there was none with its contents, and else
may still give its translations. -/
theorem leftOf_append_self (entries : List Entry) (entry : Entry) :
    leftOf (entries ++ [entry]) entry.contentKey
      = some ((leftOf entries entry.contentKey).elim entry fun known =>
          known.translatedBy entry) := by
  unfold leftOf
  rw [List.find?_append, List.find?_append]
  cases hfirst : entries.find? fun e => e.contentKey == entry.contentKey with
  | none =>
      have hdonor : (entries.find? fun e =>
          e.contentKey == entry.contentKey && e.isTranslated) = none := by
        rw [List.find?_eq_none] at hfirst ⊢
        intro e he h
        exact hfirst e he (Bool.and_eq_true_iff.mp h).1
      rw [hdonor]
      cases htranslated : entry.isTranslated with
      | true => simp [htranslated]
      | false => simp [htranslated]
  | some first =>
      cases hdonor : entries.find? fun e =>
          e.contentKey == entry.contentKey && e.isTranslated with
      | some donor =>
          have hfound := List.find?_some hdonor
          have htranslated : ({ first with translations := donor.translations }
              : Entry).isTranslated = true := (Bool.and_eq_true_iff.mp hfound).2
          exact congrArg some (Entry.translatedBy_of_isTranslated htranslated entry).symm
      | none =>
          -- the first entry has not been translated by any so far
          have huntranslated : first.isTranslated = false := by
            have hnot := List.find?_eq_none.mp hdonor first (List.mem_of_find?_eq_some hfirst)
            have hkey := List.find?_some hfirst
            rw [hkey, Bool.true_and] at hnot
            exact Bool.eq_false_iff.mpr hnot
          cases htranslated : entry.isTranslated with
          | true => simp [Entry.translatedBy, huntranslated, htranslated]
          | false => simp [Entry.translatedBy, htranslated]

namespace IsLeftOf

variable {kept entries : List Entry}

theorem nil : IsLeftOf [] [] where
  plain _ h := nomatch h
  nodup := List.nodup_nil
  find _ := rfl

/-- An entry with new contents. -/
theorem concat (h : IsLeftOf kept entries) {entry : Entry} (hentry : entry.IsPlain)
    (hnew : (kept.findIdx? fun e => e.contentKey == entry.contentKey) = none) :
    IsLeftOf (kept ++ [entry]) (entries ++ [entry]) := by
  have hother := List.findIdx?_eq_none_iff.mp hnew
  refine ⟨?_, ?_, ?_⟩
  · intro e he
    rcases List.mem_append.mp he with he | he
    · exact h.plain e he
    · rw [List.mem_singleton.mp he]
      exact hentry
  · rw [List.map_append, List.nodup_append]
    refine ⟨h.nodup, List.nodup_singleton _, ?_⟩
    intro known hknown key hkey heq
    obtain ⟨e, he, rfl⟩ := List.mem_map.mp hknown
    rw [List.map_singleton, List.mem_singleton] at hkey
    exact beq_eq_false_iff_ne.mp (hother e he) (heq.trans hkey)
  · intro key
    rw [List.find?_append, h.find]
    by_cases hkey : entry.contentKey = key
    · subst hkey
      have hnone : leftOf entries entry.contentKey = none := by
        rw [← h.find, List.find?_eq_none]
        intro e he
        exact Bool.eq_false_iff.mp (hother e he)
      rw [leftOf_append_self, hnone]
      simp
    · rw [leftOf_append_of_ne entries hkey]
      simp [hkey]

/-- An entry that is taken in. -/
theorem set (h : IsLeftOf kept entries) {entry known : Entry} {position : Nat}
    (hposition : (kept.findIdx? fun e => e.contentKey == entry.contentKey) = some position)
    (hknown : kept[position]? = some known) :
    IsLeftOf (kept.set position (known.translatedBy entry)) (entries ++ [entry]) := by
  obtain ⟨hinside, rfl⟩ := List.getElem?_eq_some_iff.mp hknown
  have hkey : kept[position].contentKey = entry.contentKey :=
    beq_iff_eq.mp (List.findIdx?_eq_some_iff_getElem.mp hposition).2.1
  refine ⟨?_, ?_, ?_⟩
  · intro e he
    rcases List.mem_or_eq_of_mem_set he with he | rfl
    · exact h.plain e he
    · exact Entry.isPlain_translatedBy (h.plain _ (List.getElem_mem hinside)) entry
  · rw [List.map_set, Entry.contentKey_translatedBy, ← List.map_set, List.set_getElem_self]
    exact h.nodup
  · intro key
    have htaken := Entry.contentKey_translatedBy kept[position] entry
    by_cases hsame : entry.contentKey = key
    · subst hsame
      have hleft : leftOf entries entry.contentKey = some kept[position] := by
        rw [← h.find, List.find?_eq_some_iff_getElem]
        obtain ⟨_, hfound, hbefore⟩ := List.findIdx?_eq_some_iff_getElem.mp hposition
        refine ⟨hfound, position, hinside, rfl, ?_⟩
        intro place hplace
        rw [Bool.not_eq_true', Bool.eq_false_iff]
        exact hbefore place hplace
      rw [leftOf_append_self, hleft]
      have hitem : (((kept[position].translatedBy entry).contentKey == entry.contentKey) : Bool)
          = true := beq_iff_eq.mpr (htaken.trans hkey)
      exact find?_set_of_findIdx? (p := fun e : Entry => e.contentKey == entry.contentKey) hitem
        hposition
    · have hother : (kept[position].contentKey == key) = false := by
        rw [hkey]
        exact beq_eq_false_iff_ne.mpr hsame
      have hitem : ((kept[position].translatedBy entry).contentKey == key) = false := by
        rw [htaken, hother]
      rw [leftOf_append_of_ne entries hsame, ← h.find]
      exact find?_set_of_not (p := fun e : Entry => e.contentKey == key) hother hitem hknown

end IsLeftOf

/-- Folding plain entries leaves one for all the contents that there are. -/
theorem isLeftOf_survivors {entries : List Entry} (h : ∀ entry ∈ entries, entry.IsPlain) :
    IsLeftOf ((survivors entries).map Survivor.entry) entries := by
  induction entries using List.reverseRecOn with
  | nil => exact .nil
  | append_singleton entries entry ih =>
      have hfolded := ih fun e he => h e (List.mem_append_left _ he)
      have hentry : entry.IsPlain := h entry (List.mem_append_right _ List.mem_cons_self)
      rw [survivors_append_singleton]
      rcases foldEntry_of_isPlain hfolded.plain hentry with
        ⟨hnew, heq⟩ | ⟨position, known, hposition, hknown, heq⟩
      · rw [heq]
        exact hfolded.concat hentry hnew
      · rw [heq]
        exact hfolded.set hposition hknown

/-- What is left of some contents is the one entry that has them. -/
theorem IsLeftOf.mem_iff {kept entries : List Entry} (h : IsLeftOf kept entries) {entry : Entry} :
    entry ∈ kept ↔ leftOf entries entry.contentKey = some entry := by
  rw [← h.find]
  constructor
  · intro hmem
    cases hfound : kept.find? fun e => e.contentKey == entry.contentKey with
    | none =>
        have hnot := List.find?_eq_none.mp hfound entry hmem
        exact absurd (beq_self_eq_true _) hnot
    | some found =>
        have hkey := List.find?_some hfound
        rw [beq_iff_eq] at hkey
        have hsame := List.inj_on_of_nodup_map h.nodup (List.mem_of_find?_eq_some hfound) hmem hkey
        rw [hsame]
  · exact List.mem_of_find?_eq_some

end MessageCatalog
