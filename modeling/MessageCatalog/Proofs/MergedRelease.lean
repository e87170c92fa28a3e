/-
# `MessageCatalog.Proofs.MergedRelease` — whose translation a merged release has

Among entries that are finished with a single translation, folding keeps the
first one with each contents as it is, and a release has its translation.
Merging replaces the last one, if the base finds that one.  The two meet where
the base has an entry with these contents:

    base        others      merged       released
    none        … last      last         last
    one         … last      last         last
    a, …, b     … last      a, …, last   a

So the later catalog wins unless the base repeats the contents; then its own
first entry does.  In `repeating` a translation of the later catalog comes to
nothing.
-/
import MessageCatalog.Proofs.Merging
import MessageCatalog.Proofs.Recompiling
import MessageCatalog.Proofs.ReleasedKeys

namespace MessageCatalog

/-! ## Settled entries -/

/-- The entry has no id, a source text and a single translation, and is
finished. -/
structure Entry.IsSettled (entry : Entry) : Prop where
  plain : entry.IsPlain
  finished : entry.state = .finished
  single : entry.plural = false
  translated : ∃ translation, translation ≠ "" ∧ entry.translations = [translation]

namespace Entry.IsSettled

variable {entry : Entry}

theorem isTranslated (h : entry.IsSettled) : entry.isTranslated = true := by
  obtain ⟨translation, hne, htranslations⟩ := h.translated
  refine isTranslated_of_translation ?_
  rw [Entry.translation, htranslations]
  exact hne

/-- There is nothing to fit. -/
theorem fitted (h : entry.IsSettled) (forms : Nat) : entry.fitted forms = entry := by
  obtain ⟨translation, -, htranslations⟩ := h.translated
  have hsame : entry.fittedTranslations forms = entry.translations := by
    rw [fittedTranslations, neededForms, h.single, htranslations]
    rfl
  rw [Entry.fitted, hsame]

end Entry.IsSettled

/-- Where all entries are translated, the first one with some contents is
left as it is. -/
theorem leftOf_of_isTranslated {entries : List Entry}
    (h : ∀ entry ∈ entries, entry.isTranslated = true) (key : ContentKey) :
    leftOf entries key = (withContents key entries).head? := by
  have hdonor : (entries.find? fun e => e.contentKey == key && e.isTranslated)
      = entries.find? fun e => e.contentKey == key := by
    rw [← List.head?_filter, ← List.head?_filter]
    refine congrArg List.head? (List.filter_congr fun e he => ?_)
    rw [h e he, Bool.and_true]
  have hfirst : (withContents key entries).head? = entries.find? fun e => e.contentKey == key :=
    List.head?_filter
  rw [hfirst, leftOf, hdonor]
  cases entries.find? fun e => e.contentKey == key with
  | none => rfl
  | some first => rfl

theorem withContents_map {key : ContentKey} {change : Entry → Entry}
    (h : ∀ entry, (change entry).contentKey = entry.contentKey) (entries : List Entry) :
    withContents key (entries.map change) = (withContents key entries).map change := by
  rw [withContents, List.filter_map]
  refine congrArg (List.map change) (List.filter_congr fun entry _ => ?_)
  rw [Function.comp_apply, h]

/-- Folding leaves the first of the settled entries with some contents. -/
theorem withContents_survivors {entries : List Entry} (h : ∀ entry ∈ entries, entry.IsSettled)
    (key : ContentKey) :
    withContents key ((survivors entries).map Survivor.entry)
      = (withContents key entries).head?.toList := by
  have hleft := isLeftOf_survivors fun entry hentry => (h entry hentry).plain
  have hfind : (withContents key ((survivors entries).map Survivor.entry)).head?
      = leftOf entries key := List.head?_filter.trans (hleft.find key)
  rw [leftOf_of_isTranslated fun entry hentry => (h entry hentry).isTranslated] at hfind
  obtain ⟨single, hsingle⟩ :=
    exists_toList_of_length_le_one (nodup_contentKey_iff.mp hleft.nodup key)
  rw [← hfind, hsingle]
  cases single <;> rfl

theorem mem_of_mem_survivors {entries : List Entry} (h : ∀ entry ∈ entries, entry.IsSettled)
    {entry : Entry} (hentry : entry ∈ (survivors entries).map Survivor.entry) :
    entry ∈ entries := by
  have hmem : entry ∈ withContents entry.contentKey ((survivors entries).map Survivor.entry) :=
    List.mem_filter.mpr ⟨hentry, decide_eq_true rfl⟩
  rw [withContents_survivors h, Option.mem_toList] at hmem
  exact (List.mem_filter.mp (List.mem_of_mem_head? hmem)).1

/-! ## Releases of settled entries -/

/-- The entry that is restored from the record of a settled one. -/
def Entry.released (language : String) (entry : Entry) : Entry :=
  Compiled.restoredEntry language (Compiled.fullKey entry, entry.translations)

theorem Entry.contentKey_released (language : String) (entry : Entry) :
    (entry.released language).contentKey = entry.contentKey := rfl

section

variable {catalog : Catalog}

/-- A release has nothing to fit in what folding leaves. -/
theorem Catalog.entries_prepared (h : ∀ entry ∈ catalog.entries, entry.IsSettled) :
    (catalog.prepared false).entries = (survivors catalog.entries).map Survivor.entry := by
  refine (List.map_congr_left fun entry hentry => ?_).trans (List.map_id _)
  exact (h entry (mem_of_mem_survivors h hentry)).fitted _

/-- Settled entries without duplicates are restored, in another order. -/
theorem Compiled.perm_restoredCatalog {language : String}
    (hfinished : ∀ entry ∈ catalog.entries, entry.state = .finished)
    (hkeys : (catalog.entries.map Entry.contentKey).Nodup) :
    ((sortedRecords {} catalog).map (restoredEntry language)).Perm
      (catalog.entries.map (Entry.released language)) := by
  have hstored : storedEntries {} catalog = catalog.entries :=
    storedEntries_of_finished rfl hfinished
  have hnodup : ((storedEntries {} catalog).map (recordKey {})).Nodup := by
    rw [hstored]
    refine List.pairwise_map.mpr ((List.pairwise_map.mp hkeys).imp fun hne heq => hne ?_)
    exact fullKey_eq_iff.mp heq
  have hcollect : (collect {} catalog).Perm
      (catalog.entries.map fun entry => (fullKey entry, entry.translations)) := by
    rw [collect_of_nodup rfl hnodup, hstored]
    refine (List.reverse_perm _).trans (List.Perm.of_eq (List.map_congr_left fun entry _ => ?_))
    rw [translationsOf_of_not_fillsIn (by decide)]
    rfl
  have hsorted : (sortedRecords {} catalog).Perm
      (catalog.entries.map fun entry => (fullKey entry, entry.translations)) :=
    (List.mergeSort_perm _ _).trans hcollect
  have hrestored := hsorted.map (restoredEntry language)
  rw [List.map_map] at hrestored
  exact hrestored

end

/-- A release has a record for the first of the settled entries with some
contents, with its translation. -/
theorem Catalog.exists_decompile_release_of_isSettled {catalog : Catalog} {verbose : Bool}
    {path : Path} {bytes : Bytes} (hsettled : ∀ entry ∈ catalog.entries, entry.IsSettled)
    (h : (catalog.release {} false verbose path).bytes = .ok bytes) :
    ∃ restored, Compiled.decompile bytes = .ok restored
      ∧ ∀ key, withContents key restored.entries
          = (withContents key catalog.entries).head?.toList.map
              (Entry.released catalog.language) := by
  obtain ⟨file, hparse, hfile⟩ := Catalog.parse_release h
  refine ⟨_, Compiled.bind_eq_ok.mpr ⟨file, hparse, hfile.toCatalog_everything rfl⟩, ?_⟩
  intro key
  have hentries := Catalog.entries_prepared hsettled
  have hleft := isLeftOf_survivors fun entry hentry => (hsettled entry hentry).plain
  have hperm : ((Compiled.sortedRecords {} (catalog.prepared false)).map
      (Compiled.restoredEntry catalog.language)).Perm
        ((catalog.prepared false).entries.map (Entry.released catalog.language)) := by
    refine Compiled.perm_restoredCatalog ?_ ?_
    · rw [hentries]
      exact fun entry hentry => (hsettled entry (mem_of_mem_survivors hsettled hentry)).finished
    · rw [hentries]
      exact hleft.nodup
  have hkept : withContents key ((catalog.prepared false).entries.map
        (Entry.released catalog.language))
      = (withContents key catalog.entries).head?.toList.map (Entry.released catalog.language) := by
    rw [withContents_map (Entry.contentKey_released _), hentries, withContents_survivors hsettled]
  have hsame : (withContents key ((Compiled.sortedRecords {} (catalog.prepared false)).map
      (Compiled.restoredEntry catalog.language))).Perm
        ((withContents key catalog.entries).head?.toList.map (Entry.released catalog.language)) :=
    hkept ▸ hperm.filter _
  cases hfirst : (withContents key catalog.entries).head? with
  | none =>
      rw [hfirst] at hsame
      exact hsame.eq_nil
  | some first =>
      rw [hfirst] at hsame
      exact hsame.eq_singleton

/-! ## Merged releases -/

namespace Store

variable {base : Store} {others : List Catalog}

theorem isSettled_merge (hbase : ∀ entry ∈ base.entries, entry.IsSettled)
    (hothers : ∀ other ∈ others, ∀ entry ∈ other.entries, entry.IsSettled) :
    ∀ entry ∈ (base.merge others).entries, entry.IsSettled := by
  intro entry hentry
  rcases mem_of_mem_merge hentry with hmem | ⟨other, hother, hmem⟩
  · exact hbase entry hmem
  · exact hothers other hother entry hmem

/-- The first entry with some contents, after others with these contents were
brought in, is the last one of them or, where the base repeats the contents,
its own first one. -/
theorem IsOverlaid.exists_first {store : Store} {incoming : List Entry}
    (h : IsOverlaid base incoming store) {key : ContentKey} {last : Entry}
    (hlast : (withContents key incoming).getLast? = some last) :
    ∃ first, (withContents key store.entries).head? = some first
      ∧ ((withContents key base.entries).length ≤ 1 → first = last)
      ∧ (base.LeadsToLast → ∀ kept second rest,
          withContents key base.entries = kept :: second :: rest → first = kept) := by
  by_cases hfew : (withContents key base.entries).length ≤ 1
  · have hcontents : withContents key store.entries = [last] := by
      rw [h.contents key (.inl hfew), overlaid_of_length_le_one hfew, List.getLast?_append, hlast]
      rfl
    refine ⟨last, by rw [hcontents]; rfl, fun _ => rfl, ?_⟩
    intro _ kept second rest hrepeated
    rw [hrepeated] at hfew
    exact absurd hfew (by simp)
  · have hstored : withContents key base.entries ≠ [] := by
      intro hnil
      rw [hnil] at hfew
      exact hfew (Nat.zero_le _)
    have hkept : withContents key store.entries ≠ [] := by
      rw [withContents_ne_nil_iff] at hstored ⊢
      exact h.order.subset hstored
    obtain ⟨first, others, hentries⟩ := List.exists_cons_of_ne_nil hkept
    refine ⟨first, by rw [hentries]; rfl, fun hfew' => absurd hfew' hfew, ?_⟩
    intro hleads kept second rest hrepeated
    have hcontents := h.contents key (.inr hleads)
    rw [hentries, hrepeated, hlast] at hcontents
    exact (List.cons.inj hcontents).1

/-- In a merged release of settled entries, the record under some contents has
the translation of the last entry that brought them in, unless the base has
several entries with these contents; then it has that of the first of them,
where the last one is found.  The base has to find what it has. -/
theorem translations_release_merge {catalog : Catalog} {operations : List Operation}
    {verbose : Bool} {path : Path} {bytes : Bytes}
    (hrun : (ofCatalog catalog).run operations = base)
    (hbase : ∀ entry ∈ base.entries, entry.IsSettled)
    (hothers : ∀ other ∈ others, ∀ entry ∈ other.entries, entry.IsSettled)
    (hfinds : base.FindsAll)
    (h : ((base.merge others).catalog.release {} false verbose path).bytes = .ok bytes) :
    ∃ restored, Compiled.decompile bytes = .ok restored
      ∧ ∀ key last, (withContents key (others.flatMap Catalog.entries)).getLast? = some last →
          ∃ record, withContents key restored.entries = [record]
            ∧ ((withContents key base.entries).length ≤ 1 →
                record.translations = last.translations)
            ∧ (base.FindsLast →
                ∀ first second rest, withContents key base.entries = first :: second :: rest →
                  record.translations = first.translations) := by
  have hplain : ∀ entry ∈ base.entries, entry.IsPlain := fun entry hentry =>
    (hbase entry hentry).plain
  have hsound := sound_of_run hrun
  have hmerged := isOverlaid_merge hplain (isIndexed_of_findsAll hsound hplain hfinds)
    fun other hother entry hentry => (hothers other hother entry hentry).plain
  obtain ⟨restored, hrestored, hrecords⟩ :=
    Catalog.exists_decompile_release_of_isSettled (isSettled_merge hbase hothers) h
  refine ⟨restored, hrestored, ?_⟩
  intro key last hlast
  obtain ⟨first, hfirst, honce, hrepeated⟩ := hmerged.exists_first hlast
  have hrecord : withContents key restored.entries
      = (withContents key (base.merge others).entries).head?.toList.map
          (Entry.released (base.merge others).catalog.language) := hrecords key
  rw [hfirst] at hrecord
  refine ⟨first.released _, hrecord, ?_, ?_⟩
  · intro hfew
    rw [honce hfew]
    rfl
  · intro hfindsLast kept second rest hstored
    rw [hrepeated (leadsToLast_of_findsLast hsound hplain hfindsLast) kept second rest hstored]
    rfl

end Store

/-- A finished entry with one translation. -/
def finishedEntry (source translation : String) : Entry where
  context := "C"
  source := source
  translations := [translation]
  state := .finished

/-- A catalog that has one text once and another one twice. -/
def repeating : Catalog where
  entries := [finishedEntry "Open" "Auf", finishedEntry "Close" "Zu",
    finishedEntry "Close" "Zumachen"]

/-- Later translations of both texts. -/
def revisions : List Catalog :=
  [{ entries := [finishedEntry "Open" "Aufmachen"] },
    { entries := [finishedEntry "Close" "Schluss", finishedEntry "Open" "Offen"] }]

theorem isSettled_finishedEntry {source translation : String} (hsource : source ≠ "")
    (htranslation : translation ≠ "") : (finishedEntry source translation).IsSettled :=
  ⟨⟨rfl, hsource⟩, rfl, rfl, translation, htranslation, rfl⟩

theorem isSettled_repeating : ∀ entry ∈ repeating.entries, entry.IsSettled := by
  simp [repeating, isSettled_finishedEntry]

theorem isSettled_revisions : ∀ other ∈ revisions, ∀ entry ∈ other.entries, entry.IsSettled := by
  simp [revisions, isSettled_finishedEntry]

/-- A look-up that builds the index. -/
def consulting : List Operation := [.find (finishedEntry "Close" "Zu")]

/-- The text that the base has once is released with its last translation, and
the one that it has twice with its first. -/
theorem Store.translations_release_merge_revisions :
    ∃ bytes restored,
      ((((ofCatalog repeating).run consulting).merge revisions).catalog.release {} false false
        default).bytes = .ok bytes
      ∧ Compiled.decompile bytes = .ok restored
      ∧ (∃ record, withContents ⟨"C", "Open", ""⟩ restored.entries = [record]
        ∧ record.translations = ["Offen"])
      ∧ ∃ record, withContents ⟨"C", "Close", ""⟩ restored.entries = [record]
        ∧ record.translations = ["Zu"] := by
  obtain ⟨bytes, h⟩ : ∃ bytes,
      ((((ofCatalog repeating).run consulting).merge revisions).catalog.release {} false false
        default).bytes = .ok bytes :=
    Catalog.exists_release (Compiled.exists_compile _ _ (by decide) (by decide) (by decide))
  have hrun : (ofCatalog repeating).run consulting = (ofCatalog repeating).run consulting := rfl
  have hfinds := findsAll_of_run hrun (by decide) (.inr ⟨trivial, trivial⟩)
  have hlast := findsLast_of_run hrun (by decide) (.inr ⟨trivial, trivial⟩)
  obtain ⟨restored, hrestored, hall⟩ :=
    translations_release_merge hrun isSettled_repeating isSettled_revisions hfinds h
  obtain ⟨opened, hopened, honce, -⟩ :=
    hall ⟨"C", "Open", ""⟩ (finishedEntry "Open" "Offen") (by decide)
  obtain ⟨closed, hclosed, -, htwice⟩ :=
    hall ⟨"C", "Close", ""⟩ (finishedEntry "Close" "Schluss") (by decide)
  exact ⟨bytes, restored, h, hrestored, ⟨opened, hopened, honce (by decide)⟩,
    closed, hclosed, htwice hlast (finishedEntry "Close" "Zu") _ _ rfl⟩

/-- So a translation of a later catalog comes to nothing. -/
theorem Store.translations_release_repeating_ne :
    ∃ bytes restored,
      (((ofCatalog repeating).merge revisions).catalog.release {} false false default).bytes
        = .ok bytes
      ∧ Compiled.decompile bytes = .ok restored
      ∧ (∀ entry ∈ repeating.entries, entry.IsSettled)
      ∧ (∀ other ∈ revisions, ∀ entry ∈ other.entries, entry.IsSettled)
      ∧ ∃ key last record,
        (withContents key (revisions.flatMap Catalog.entries)).getLast? = some last
        ∧ withContents key restored.entries = [record]
        ∧ record.translations ≠ last.translations := by
  obtain ⟨bytes, h⟩ : ∃ bytes,
      (((ofCatalog repeating).merge revisions).catalog.release {} false false default).bytes
        = .ok bytes :=
    Catalog.exists_release (Compiled.exists_compile _ _ (by decide) (by decide) (by decide))
  have hentries : ((ofCatalog repeating).merge revisions).catalog.entries
      = [finishedEntry "Open" "Offen", finishedEntry "Close" "Zu",
        finishedEntry "Close" "Schluss"] := by
    decide
  have hsettled : ∀ entry ∈ ((ofCatalog repeating).merge revisions).entries, entry.IsSettled :=
    isSettled_merge isSettled_repeating isSettled_revisions
  obtain ⟨restored, hrestored, hall⟩ := Catalog.exists_decompile_release_of_isSettled hsettled h
  have hrecord := hall ⟨"C", "Close", ""⟩
  rw [hentries] at hrecord
  exact ⟨bytes, restored, h, hrestored, isSettled_repeating, isSettled_revisions,
    ⟨"C", "Close", ""⟩, finishedEntry "Close" "Schluss", _, by decide, hrecord, by decide⟩

end MessageCatalog
