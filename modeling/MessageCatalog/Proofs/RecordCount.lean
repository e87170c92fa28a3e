/-
# `MessageCatalog.Proofs.RecordCount` — how many records a catalog has

Every stored entry is counted, finished or unfinished, but an entry whose key
is taken gets no record.  So there are at most as many records as entries
were counted, and exactly as many if no entry finds its key taken.

The key that an entry claims depends on the entries in front of it
(`keyBehind`): the first one of its texts may do without its comment, and the
others may not.  Without ids, an entry finds its key taken exactly if

    one in front of it has the same texts, and claimed its full key

In a folded catalog these two have different ids, since entries with the
same contents are kept only then.  With ids every entry has a record.
-/
import Mathlib.Data.List.Induction
import MessageCatalog.Proofs.FoldedGroups
import MessageCatalog.Proofs.SqueezedLookup

namespace MessageCatalog.Compiled

/-! ## Counted entries -/

/-- An entry is stored and counted, or neither. -/
theorem length_storedEntries (options : Options) (catalog : Catalog) :
    (storedEntries options catalog).length
      = (statistics options catalog).finished + (statistics options catalog).unfinished := by
  rw [storedEntries, ← List.countP_eq_length_filter]
  show _ = (catalog.entries.countP fun entry => options.fate entry == .finished)
    + catalog.entries.countP fun entry => options.fate entry == .unfinished
  induction catalog.entries with
  | nil => rfl
  | cons entry entries ih =>
      have hentry : ∀ fate : Fate, (if fate.isStored = true then 1 else 0)
          = (if (fate == .finished) = true then 1 else 0)
            + if (fate == .unfinished) = true then 1 else 0 := by
        intro fate
        cases fate <;> rfl
      rw [List.countP_cons, List.countP_cons, List.countP_cons, ih, hentry]
      omega

/-! ## Claims -/

section

variable (options : Options) (catalog : Catalog)

/-- The key that an entry claims behind some others. -/
def keyBehind (front : List Entry) (entry : Entry) : Key :=
  claimedKey options catalog (fun key => front.any fun e => squeezedKey e == key) entry

/-- The entry claims its full key behind some others: its comment has to
stay, or one of them has its context and its source text. -/
def ClaimsFullKey (front : List Entry) (entry : Entry) : Prop :=
  keepsComment options catalog entry = true ∨ ∃ e ∈ front, squeezedKey e = squeezedKey entry

/-- The full key of an entry is claimed by one of those in front of it. -/
def IsShadowed (front : List Entry) (entry : Entry) : Prop :=
  ∃ before earlier, before ++ [earlier] <+: front ∧ fullKey earlier = fullKey entry
    ∧ ClaimsFullKey options catalog before earlier

/-- The keys that are claimed in a run over some entries. -/
def claims (entries : List Entry) : List (Key × Entry) := entries.foldl (claim options catalog) []

end

section

variable {options : Options} {catalog : Catalog} {front : List Entry} {entry : Entry}

theorem claims_concat (entries : List Entry) (entry : Entry) :
    claims options catalog (entries ++ [entry])
      = claim options catalog (claims options catalog entries) entry := by
  rw [claims, List.foldl_append]
  rfl

theorem isTaken_claim (known : List (Key × Entry)) (entry : Entry) (key : Key) :
    isTaken (claim options catalog known entry) key = true
      ↔ isTaken known key = true ∨ claimedKey options catalog (isTaken known) entry = key := by
  unfold claim
  split
  · next htaken =>
    constructor
    · exact .inl
    · rintro (hknown | rfl)
      · exact hknown
      · exact htaken
  · simp only [isTaken, List.any_cons, Bool.or_eq_true, beq_iff_eq]
    exact or_comm

theorem squeezedKey_of_fullKey {a b : Entry} (h : fullKey a = fullKey b) :
    squeezedKey a = squeezedKey b := by
  simp only [fullKey, squeezedKey, Key.mk.injEq] at h ⊢
  exact ⟨h.1, h.2.1, trivial⟩

theorem keepsComment_congr {a b : Entry} (h : fullKey a = fullKey b) :
    keepsComment options catalog a = keepsComment options catalog b := by
  simp only [fullKey, Key.mk.injEq] at h
  simp only [keepsComment, hasCommentless, h]

theorem claimsFullKey_congr {a b : Entry} (h : fullKey a = fullKey b) :
    ClaimsFullKey options catalog front a ↔ ClaimsFullKey options catalog front b := by
  rw [ClaimsFullKey, ClaimsFullKey, keepsComment_congr h, squeezedKey_of_fullKey h]

theorem claimsFullKey_iff : ClaimsFullKey options catalog front entry
    ↔ (!keepsComment options catalog entry
        && !front.any fun e => squeezedKey e == squeezedKey entry) = false := by
  simp only [ClaimsFullKey, Bool.and_eq_false_iff, Bool.not_eq_false', List.any_eq_true, beq_iff_eq]

theorem keyBehind_of_claimsFullKey (hid : options.idBased = false)
    (h : ClaimsFullKey options catalog front entry) :
    keyBehind options catalog front entry = fullKey entry := by
  rw [keyBehind, claimedKey, hid, if_neg Bool.false_ne_true]
  exact if_neg (Bool.eq_false_iff.mp (claimsFullKey_iff.mp h))

theorem keyBehind_of_not_claimsFullKey (hid : options.idBased = false)
    (h : ¬ ClaimsFullKey options catalog front entry) :
    keyBehind options catalog front entry = squeezedKey entry := by
  rw [keyBehind, claimedKey, hid, if_neg Bool.false_ne_true]
  rw [claimsFullKey_iff, Bool.not_eq_false] at h
  exact if_pos h

theorem squeezedKey_of_isKeyOf {key : Key} (h : IsKeyOf options catalog entry key) :
    squeezedKey entry = ⟨key.context, key.source, ""⟩ := by
  rcases h with rfl | ⟨rfl, -⟩
  · rfl
  · rfl

/-- Entries with the texts of one that may do without its comment may do so
too. -/
theorem keepsComment_of_squeezedKey {other : Entry} (hother : other ∈ catalog.entries)
    (h : squeezedKey other = squeezedKey entry)
    (hkeeps : keepsComment options catalog entry = false) :
    keepsComment options catalog other = false := by
  have hnone := not_hasCommentless hkeeps
  have hcommentless := List.any_eq_false.mp hnone other hother
  simp only [squeezedKey, Key.mk.injEq] at h
  obtain ⟨hcontext, hsource, -⟩ := h
  have hcomment : other.comment.isEmpty = false := by
    refine Bool.eq_false_iff.mpr fun hempty => hcommentless ?_
    rw [hempty, hcontext, hsource, beq_self_eq_true, beq_self_eq_true]
    rfl
  simp only [keepsComment, hasCommentless, Bool.or_eq_false_iff] at hkeeps ⊢
  rw [hcontext, hsource]
  exact ⟨⟨⟨hkeeps.1.1.1, hcomment⟩, hkeeps.1.2⟩, hkeeps.2⟩

/-- An entry of a run is the last one, behind all others, or it is one of the
run without the last one. -/
theorem leads_concat {entries : List Entry} {last : Entry}
    (h : front ++ [entry] <+: entries ++ [last]) :
    front = entries ∧ entry = last ∨ front ++ [entry] <+: entries := by
  rcases List.prefix_concat_iff.mp h with hall | hleads
  · obtain ⟨hfront, hlast⟩ := List.append_inj' hall rfl
    exact .inl ⟨hfront, List.head_eq_of_cons_eq hlast⟩
  · exact .inr hleads

/-- Behind some entries, those keys are taken that they claimed, each behind
the entries in front of it. -/
def TakesClaims (options : Options) (catalog : Catalog) (front : List Entry) : Prop :=
  ∀ key, isTaken (claims options catalog front) key = true
    ↔ ∃ before e, before ++ [e] <+: front ∧ keyBehind options catalog before e = key

theorem isTaken_squeezedKey (hid : options.idBased = false)
    (hfront : ∀ e ∈ front, e ∈ catalog.entries) (htakes : TakesClaims options catalog front)
    (hkeeps : keepsComment options catalog entry = false) :
    isTaken (claims options catalog front) (squeezedKey entry) = true
      ↔ ∃ e ∈ front, squeezedKey e = squeezedKey entry := by
  rw [htakes]
  constructor
  · rintro ⟨before, e, hleads, hkey⟩
    have hof : IsKeyOf options catalog e (squeezedKey entry) := hkey ▸ isKeyOf_claimedKey hid _ e
    exact ⟨e, hleads.subset (List.mem_append_right _ List.mem_cons_self),
      squeezedKey_of_isKeyOf hof⟩
  · rintro ⟨e, he, hkey⟩
    -- the first one with these texts did without its comment
    have hfound : (front.find? fun e => squeezedKey e == squeezedKey entry).isSome = true :=
      List.find?_isSome.mpr ⟨e, he, beq_iff_eq.mpr hkey⟩
    obtain ⟨first, hfirst⟩ := Option.isSome_iff_exists.mp hfound
    obtain ⟨hsame, before, after, rfl, hbefore⟩ := List.find?_eq_some_iff_append.mp hfirst
    rw [beq_iff_eq] at hsame
    have hfirstKeeps : keepsComment options catalog first = false :=
      keepsComment_of_squeezedKey (hfront first (by simp)) hsame hkeeps
    have hclaims : ¬ ClaimsFullKey options catalog before first := by
      rintro (hcomment | ⟨x, hx, hkey⟩)
      · rw [hfirstKeeps] at hcomment
        cases hcomment
      · simpa [hkey, hsame] using hbefore x hx
    refine ⟨before, first, ⟨after, List.append_assoc _ _ _⟩, ?_⟩
    rw [keyBehind_of_not_claimsFullKey hid hclaims, hsame]

theorem claimedKey_claims (hfront : ∀ e ∈ front, e ∈ catalog.entries)
    (htakes : TakesClaims options catalog front) (entry : Entry) :
    claimedKey options catalog (isTaken (claims options catalog front)) entry
      = keyBehind options catalog front entry := by
  unfold keyBehind claimedKey
  cases hid : options.idBased with
  | true => rfl
  | false =>
      cases hkeeps : keepsComment options catalog entry with
      | true => rfl
      | false =>
          have htaken : isTaken (claims options catalog front) (squeezedKey entry)
              = front.any fun e => squeezedKey e == squeezedKey entry := by
            rw [Bool.eq_iff_iff, isTaken_squeezedKey hid hfront htakes hkeeps]
            simp only [List.any_eq_true, beq_iff_eq]
          rw [htaken]

theorem takesClaims (hfront : ∀ e ∈ front, e ∈ catalog.entries) :
    TakesClaims options catalog front := by
  induction front using List.reverseRecOn with
  | nil =>
      intro key
      refine iff_of_false Bool.false_ne_true ?_
      rintro ⟨before, e, hleads, -⟩
      simp at hleads
  | append_singleton front last ih =>
      intro key
      have hinit : ∀ e ∈ front, e ∈ catalog.entries := fun e he =>
        hfront e (List.mem_append_left _ he)
      have htakes := ih hinit
      rw [claims_concat, isTaken_claim, htakes key, claimedKey_claims hinit htakes]
      constructor
      · rintro (⟨before, e, hleads, hkey⟩ | hkey)
        · exact ⟨before, e, hleads.trans (List.prefix_append _ _), hkey⟩
        · exact ⟨front, last, List.prefix_rfl, hkey⟩
      · rintro ⟨before, e, hleads, hkey⟩
        rcases leads_concat hleads with ⟨rfl, rfl⟩ | hleads
        · exact .inr hkey
        · exact .inl ⟨before, e, hleads, hkey⟩

/-! ## Counting -/

/-- An entry whose key is taken gets none. -/
theorem length_claim (known : List (Key × Entry)) (entry : Entry) :
    (claim options catalog known entry).length
      = known.length + if isTaken known (claimedKey options catalog (isTaken known) entry) = true
          then 0 else 1 := by
  unfold claim
  split
  · rfl
  · rfl

/-- The entry claims a key that was claimed before. -/
def FindsTaken (options : Options) (catalog : Catalog) (front : List Entry) (entry : Entry) :
    Prop :=
  ∃ before e, before ++ [e] <+: front
    ∧ keyBehind options catalog before e = keyBehind options catalog front entry

theorem length_claims {entries : List Entry} (hentries : ∀ e ∈ entries, e ∈ catalog.entries) :
    (claims options catalog entries).length ≤ entries.length
      ∧ ((claims options catalog entries).length = entries.length
        ↔ ∀ front entry, front ++ [entry] <+: entries →
            ¬ FindsTaken options catalog front entry) := by
  induction entries using List.reverseRecOn with
  | nil => exact ⟨Nat.le_refl _, iff_of_true rfl fun front entry hleads => by simp at hleads⟩
  | append_singleton entries last ih =>
      have hinit : ∀ e ∈ entries, e ∈ catalog.entries := fun e he =>
        hentries e (List.mem_append_left _ he)
      obtain ⟨hle, hiff⟩ := ih hinit
      have htakes : TakesClaims options catalog entries := takesClaims hinit
      have hlast : isTaken (claims options catalog entries)
          (keyBehind options catalog entries last) = true
            ↔ FindsTaken options catalog entries last := htakes _
      rw [claims_concat, length_claim, claimedKey_claims hinit htakes, List.length_append,
        List.length_singleton]
      by_cases htaken : FindsTaken options catalog entries last
      · rw [if_pos (hlast.mpr htaken), Nat.add_zero]
        refine ⟨Nat.le_succ_of_le hle, iff_of_false (by omega) ?_⟩
        intro hnone
        exact hnone entries last List.prefix_rfl htaken
      · rw [if_neg fun h => htaken (hlast.mp h), Nat.add_right_cancel_iff, hiff]
        refine ⟨Nat.succ_le_succ hle, ?_⟩
        constructor
        · intro hnone front entry hleads
          rcases leads_concat hleads with ⟨rfl, rfl⟩ | hleads
          · exact htaken
          · exact hnone front entry hleads
        · intro hnone front entry hleads
          exact hnone front entry (hleads.trans (List.prefix_append _ _))

theorem ClaimsFullKey.of_subset {before : List Entry}
    (h : ClaimsFullKey options catalog before entry) (hsubset : before ⊆ front) :
    ClaimsFullKey options catalog front entry := by
  rcases h with hkeeps | ⟨e, he, hkey⟩
  · exact .inl hkeeps
  · exact .inr ⟨e, hsubset he, hkey⟩

/-- Without ids only a full key can be taken, and only by an entry with the
same texts. -/
theorem findsTaken_iff_isShadowed (hid : options.idBased = false)
    (hentry : entry ∈ catalog.entries) :
    FindsTaken options catalog front entry ↔ IsShadowed options catalog front entry := by
  constructor
  · rintro ⟨before, e, hleads, hkey⟩
    have he : e ∈ front := hleads.subset (List.mem_append_right _ List.mem_cons_self)
    have hof : IsKeyOf options catalog e (keyBehind options catalog before e) :=
      isKeyOf_claimedKey hid _ e
    rw [hkey] at hof
    by_cases hfull : ClaimsFullKey options catalog front entry
    · rw [keyBehind_of_claimsFullKey hid hfull] at hkey hof
      have hsame := hof.eq_fullKey hentry
      by_cases hother : ClaimsFullKey options catalog before e
      · exact ⟨before, e, hleads, hsame, hother⟩
      · -- an entry without a comment never does without it
        rw [keyBehind_of_not_claimsFullKey hid hother, ← hsame] at hkey
        have hkeeps : keepsComment options catalog e = false :=
          Bool.eq_false_iff.mpr fun hkeeps => hother (.inl hkeeps)
        exact absurd (congrArg Key.comment hkey).symm (comment_ne_empty hkeeps)
    · rw [keyBehind_of_not_claimsFullKey hid hfull] at hof
      exact absurd (.inr ⟨e, he, squeezedKey_of_isKeyOf hof⟩) hfull
  · rintro ⟨before, e, hleads, hsame, hfull⟩
    have hbefore : before <+: front := (List.prefix_append before [e]).trans hleads
    have hentryFull : ClaimsFullKey options catalog front entry :=
      ((claimsFullKey_congr hsame).mp hfull).of_subset hbefore.subset
    refine ⟨before, e, hleads, ?_⟩
    rw [keyBehind_of_claimsFullKey hid hfull, keyBehind_of_claimsFullKey hid hentryFull, hsame]

/-! ## Folded catalogs -/

theorem apart_foldDuplicates (catalog : Catalog) :
    catalog.foldDuplicates.1.entries.Pairwise Entry.Apart := by
  rw [catalog.entries_foldDuplicates]
  exact (isGroupingOf_groupsOf catalog.entries).1.apart

/-- In front of a stored entry, all entries are apart from it. -/
theorem apart_of_leading (h : catalog.entries.Pairwise Entry.Apart)
    (hleads : front ++ [entry] <+: storedEntries options catalog) :
    ∀ earlier ∈ front, earlier.Apart entry := by
  have hstored : (storedEntries options catalog).Pairwise Entry.Apart := h.filter _
  have hpair := hstored.sublist hleads.sublist
  intro earlier hearlier
  exact (List.pairwise_append.mp hpair).2.2 earlier hearlier entry List.mem_cons_self

theorem duplicateKey_of_fullKey {a b : Entry} (h : fullKey a = fullKey b) :
    a.duplicateKey = b.duplicateKey := by
  simp only [fullKey, Key.mk.injEq] at h
  simp only [Entry.duplicateKey, h]

theorem id_ne_empty_of_stored (hid : options.idBased = true)
    (h : entry ∈ storedEntries options catalog) : entry.id ≠ "" := by
  intro hempty
  have hfate := (List.mem_filter.mp h).2
  simp only [Options.fate, hid, hempty] at hfate
  split at hfate
  · cases hfate
  · cases hfate

theorem not_findsTaken_of_idBased (hid : options.idBased = true)
    (h : catalog.entries.Pairwise Entry.Apart)
    (hleads : front ++ [entry] <+: storedEntries options catalog) :
    ¬ FindsTaken options catalog front entry := by
  rintro ⟨before, e, hbefore, hkey⟩
  have he : e ∈ front := hbefore.subset (List.mem_append_right _ List.mem_cons_self)
  have hentry := id_ne_empty_of_stored hid
    (hleads.subset (List.mem_append_right _ List.mem_cons_self))
  simp only [keyBehind, claimedKey, hid, if_true, idKey, Key.mk.injEq] at hkey
  have hsame : e.id = entry.id := hkey.2.1
  exact (apart_of_leading h hleads e he).1 (hsame ▸ hentry) hsame

theorem statistics_of_compile {compilation : Compilation}
    (h : (compile options catalog).2 = .ok compilation) :
    compilation.statistics = statistics options catalog := by
  simp only [compile] at h
  split at h
  · cases h
  · cases h
    rfl

/-- A compiled catalog has a slot for every key that was claimed. -/
theorem IsCompiled.length_slots {file : File} (h : IsCompiled options catalog file) :
    file.slots.length = (claims options catalog (storedEntries options catalog)).length := by
  have hcollect : (collect options catalog).length
      = (claims options catalog (storedEntries options catalog)).length := by
    rw [collect_eq_map_origins, List.length_map]
    rfl
  have hlength := h.slots.length_eq
  rw [← List.length_map Prod.fst, map_fst_levelled] at hlength
  rw [← hlength, ← hcollect]
  exact (List.mergeSort_perm _ _).length_eq

/-- Of a catalog without duplicates every stored entry gets a record, but
those that find their full key taken. -/
theorem length_claims_of_apart (options : Options) (h : catalog.entries.Pairwise Entry.Apart) :
    (claims options catalog (storedEntries options catalog)).length
        ≤ (storedEntries options catalog).length
      ∧ ((claims options catalog (storedEntries options catalog)).length
          = (storedEntries options catalog).length
        ↔ options.idBased = true ∨ ∀ front entry,
            front ++ [entry] <+: storedEntries options catalog →
              ¬ IsShadowed options catalog front entry) := by
  have hstored : ∀ e ∈ storedEntries options catalog, e ∈ catalog.entries :=
    fun _ he => mem_entries_of_mem_storedEntries he
  obtain ⟨hle, hiff⟩ := length_claims hstored
  refine ⟨hle, hiff.trans ?_⟩
  cases hid : options.idBased with
  | true =>
      refine iff_of_true ?_ (.inl rfl)
      intro front entry hleads
      exact not_findsTaken_of_idBased hid h hleads
  | false =>
      have hsame : ∀ front entry, front ++ [entry] <+: storedEntries options catalog →
          (FindsTaken options catalog front entry ↔ IsShadowed options catalog front entry) := by
        intro front entry hleads
        have hentry := hleads.subset (List.mem_append_right front List.mem_cons_self)
        exact findsTaken_iff_isShadowed hid (hstored entry hentry)
      constructor
      · intro hnone
        refine .inr fun front entry hleads => ?_
        rw [← hsame front entry hleads]
        exact hnone front entry hleads
      · rintro (hfalse | hnone) front entry hleads
        · cases hfalse
        · rw [hsame front entry hleads]
          exact hnone front entry hleads

/-- A folded catalog has at most as many records as entries were counted.  It
has as many if records are found by ids, and else if no entry finds its full
key taken.  Entries that do have another id than the one that took it. -/
theorem length_slots_of_folded {compilation : Compilation}
    (h : (compile options catalog.foldDuplicates.1).2 = .ok compilation) :
    ∃ file, File.parse compilation.bytes = .ok file
      ∧ file.slots.length ≤ compilation.statistics.finished + compilation.statistics.unfinished
      ∧ (file.slots.length = compilation.statistics.finished + compilation.statistics.unfinished
          ↔ options.idBased = true ∨ ∀ front entry,
            front ++ [entry] <+: storedEntries options catalog.foldDuplicates.1 →
              ¬ IsShadowed options catalog.foldDuplicates.1 front entry)
      ∧ ∀ front entry, front ++ [entry] <+: storedEntries options catalog.foldDuplicates.1 →
          IsShadowed options catalog.foldDuplicates.1 front entry →
            ∃ earlier ∈ front, fullKey earlier = fullKey entry
              ∧ earlier.id ≠ "" ∧ entry.id ≠ "" ∧ earlier.id ≠ entry.id := by
  obtain ⟨file, hparse, hfile⟩ := parse_compile h
  have hapart := apart_foldDuplicates catalog
  obtain ⟨hle, hiff⟩ := length_claims_of_apart options hapart
  refine ⟨file, hparse, ?_⟩
  rw [hfile.length_slots, statistics_of_compile h, ← length_storedEntries]
  refine ⟨hle, hiff, ?_⟩
  rintro front entry hleads ⟨before, earlier, hbefore, hkey, -⟩
  have hearlier : earlier ∈ front := hbefore.subset (List.mem_append_right _ List.mem_cons_self)
  have hpair := apart_of_leading hapart hleads earlier hearlier
  obtain ⟨hearlierId, hentryId⟩ := hpair.2 (duplicateKey_of_fullKey hkey)
  exact ⟨earlier, hearlier, hkey, hearlierId, hentryId, hpair.1 hearlierId⟩

end

/-- Two entries with the same texts and different ids. -/
def sharedTexts : Catalog where
  entries := [
    { id := "file", context := "C", source := "Open", comment := "menu", translations := ["a"]
      state := .finished },
    { id := "edit", context := "C", source := "Open", comment := "menu", translations := ["b"]
      state := .finished }]

theorem exists_compile_sharedTexts (squeezeComments : Bool) :
    ∃ compilation, (compile { squeezeComments } sharedTexts.foldDuplicates.1).2
      = .ok compilation := by
  refine exists_compile _ _ ?_ (by decide) (by decide)
  cases squeezeComments <;> decide

/-- The first entry goes without its comment and leaves its full key to the
second one. -/
theorem length_slots_of_folded_sharedTexts :
    ∃ compilation, (compile { squeezeComments := true } sharedTexts.foldDuplicates.1).2
        = .ok compilation
      ∧ ∃ file, File.parse compilation.bytes = .ok file
        ∧ file.slots.length
          = compilation.statistics.finished + compilation.statistics.unfinished := by
  obtain ⟨compilation, h⟩ := exists_compile_sharedTexts true
  obtain ⟨file, hparse, -, hiff, -⟩ := length_slots_of_folded h
  refine ⟨compilation, h, file, hparse, hiff.mpr (.inr ?_)⟩
  rintro front entry hleads ⟨before, earlier, hbefore, -, hfull⟩
  have hsqueezed : ∀ e ∈ storedEntries { squeezeComments := true } sharedTexts.foldDuplicates.1,
      keepsComment { squeezeComments := true } sharedTexts.foldDuplicates.1 e = false := by decide
  have hcount : (storedEntries { squeezeComments := true } sharedTexts.foldDuplicates.1).length
      = 2 := by decide
  have hfrontLength := hleads.length_le
  have hbeforeLength := hbefore.length_le
  rw [hcount, List.length_append, List.length_singleton] at hfrontLength
  rw [List.length_append, List.length_singleton] at hbeforeLength
  have hnone : before = [] := List.eq_nil_of_length_eq_zero (by omega)
  rcases hfull with hkeeps | ⟨e, he, -⟩
  · have hearlier := hbefore.subset (List.mem_append_right before List.mem_cons_self)
    have hstored := hleads.subset (List.mem_append_left [entry] hearlier)
    rw [hsqueezed earlier hstored] at hkeeps
    cases hkeeps
  · rw [hnone] at he
    cases he

theorem length_slots_sharedTexts_ne :
    ∃ compilation, (compile {} sharedTexts.foldDuplicates.1).2 = .ok compilation
      ∧ ∃ file, File.parse compilation.bytes = .ok file
        ∧ file.slots.length
          ≠ compilation.statistics.finished + compilation.statistics.unfinished := by
  obtain ⟨compilation, h⟩ := exists_compile_sharedTexts false
  obtain ⟨file, hparse, hfile⟩ := parse_compile h
  refine ⟨compilation, h, file, hparse, ?_⟩
  rw [hfile.length_slots, statistics_of_compile h]
  decide

end MessageCatalog.Compiled
