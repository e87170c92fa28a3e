/-
# `MessageCatalog.Proofs.Rescanning` — the same scan a second time

A scan that finds again what it found before should change nothing.  Once
an entry was extended by another one, or appended, it has all that the other
one can add (`Entry.Includes`), with one exception: whether it has the extra
comment is asked of the blocks of a text.  So

    extend (extend store incoming) incoming  =  extend store incoming

exactly if the entries contradict each other, or the comment is read back as
a block of what it was added to.  A comment of several blocks never is, and a
single block is, unless it was put behind a text that ends in a cut-off
separator.  The comment of `twoUses` is of the first kind.
-/
import MessageCatalog.Proofs.CommentBlocks
import MessageCatalog.Proofs.StoreLookup
import MessageCatalog.Proofs.TranslatorWork

namespace MessageCatalog

/-! ## Entries -/

theorem TextMap.eq_of_isEmpty {a b : TextMap} (ha : a.isEmpty = true) (hb : b.isEmpty = true) :
    a = b := by
  cases a
  cases b
  cases List.isEmpty_iff.mp ha
  cases List.isEmpty_iff.mp hb
  rfl

namespace Entry

/-- The entry has all that another one could add to it, but perhaps for the
extra comment. -/
structure Includes (entry incoming : Entry) : Prop where
  source : incoming.source = "" ∨ entry.source = incoming.source
  extras : incoming.extras.isEmpty = true ∨ entry.extras = incoming.extras
  reference : ∀ file, incoming.file = some file →
    ∃ known ∈ entry.references, known.same ⟨file, incoming.line⟩ = true

theorem same_self (reference : Reference) : reference.same reference = true := by
  rw [Reference.same, Path.same, beq_self_eq_true, beq_self_eq_true, Bool.and_self]

theorem includes_self (entry : Entry) : entry.Includes entry where
  source := .inr rfl
  extras := .inr rfl
  reference := by
    intro file hfile
    refine ⟨⟨file, entry.line⟩, ?_, same_self _⟩
    rw [references, hfile]
    exact List.mem_cons_self

/-- The entry with one more block of its extra comment. -/
def withBlock (entry : Entry) (block : String) : Entry :=
  { entry with extraComment := joinedComment entry.extraComment block }

theorem withBlock_eq_self_iff {entry : Entry} {block : String} :
    entry.withBlock block = entry
      ↔ block = "" ∨ block ∈ blocks commentSeparator entry.extraComment := by
  rw [← joinedComment_eq_self_iff]
  constructor
  · intro hsame
    exact congrArg extraComment hsame
  · intro hsame
    rw [withBlock, hsame]

/-- To an entry that has all else, only the extra comment is added. -/
theorem extend_of_includes {entry incoming : Entry} (h : entry.Includes incoming) :
    entry.extend incoming = (entry.withBlock incoming.extraComment, none) := by
  have hsource : entry.contradictsSource incoming = false := by
    unfold contradictsSource
    rcases h.source with hempty | hsame
    · rw [String.isEmpty_iff.mpr hempty, Bool.not_true, Bool.and_false, Bool.false_and]
    · rw [hsame, bne_self_eq_false, Bool.and_false]
  have hdata : entry.contradictsData incoming = false := by
    unfold contradictsData
    rcases h.extras with hempty | hsame
    · rw [hempty, Bool.not_true, Bool.and_false, Bool.false_and]
    · rw [hsame, bne_self_eq_false, Bool.and_false]
  have htaken : entry.withSourceOf incoming = entry := by
    rw [withSourceOf_eq_self_iff, or_iff_not_imp_left, not_not]
    intro hnone
    rcases h.source with hempty | hsame
    · exact hempty
    · rw [← hsame, hnone]
  have hextras : (if entry.extras.isEmpty then incoming.extras else entry.extras)
      = entry.extras := by
    split
    · next hnone =>
      rcases h.extras with hempty | hsame
      · exact TextMap.eq_of_isEmpty hempty hnone
      · exact hsame.symm
    · rfl
  rw [extend, hsource, hdata, if_neg Bool.false_ne_true, if_neg Bool.false_ne_true, joined, htaken,
    hextras]
  cases hfile : incoming.file with
  | none => rfl
  | some file =>
      have hknown : entry.references.any (fun known => known.same ⟨file, incoming.line⟩) = true :=
        List.any_eq_true.mpr (h.reference file hfile)
      have hsame : entry.addNewReference ⟨file, incoming.line⟩ = entry := if_pos hknown
      dsimp only
      rw [hsame]
      rfl

theorem exists_same_addNewReference (entry : Entry) (reference : Reference) :
    ∃ known ∈ (entry.addNewReference reference).references, known.same reference = true := by
  unfold addNewReference
  split
  · next hknown => exact List.any_eq_true.mp hknown
  · refine ⟨reference, ?_, same_self reference⟩
    unfold addReference references
    cases entry.file with
    | some file => exact List.mem_cons_of_mem _ (List.mem_append_right _ List.mem_cons_self)
    | none => exact List.mem_cons_self

/-- What was joined has all of the other entry. -/
theorem includes_joined {entry incoming : Entry}
    (hsource : entry.contradictsSource incoming = false)
    (hdata : entry.contradictsData incoming = false) :
    (entry.joined incoming).Includes incoming := by
  obtain ⟨file, line, others, hjoined, -⟩ := exists_joined entry incoming
  refine ⟨?_, ?_, ?_⟩
  · rw [hjoined]
    dsimp only
    unfold withSourceOf
    split
    · exact .inr rfl
    · next hsome => simpa [contradictsSource, hsome, or_iff_not_imp_left] using hsource
  · rw [hjoined]
    dsimp only
    split
    · exact .inr rfl
    · next hsome => simpa [contradictsData, hsome, or_iff_not_imp_left] using hdata
  · intro name hname
    unfold joined
    rw [hname]
    exact exists_same_addNewReference _ _

theorem withSourceOf_withSourceOf (entry incoming : Entry) :
    (entry.withSourceOf incoming).withSourceOf incoming = entry.withSourceOf incoming := by
  cases hsource : entry.source.isEmpty with
  | false => rw [withSourceOf_of_source hsource, withSourceOf_of_source hsource]
  | true =>
      have htaken : entry.withSourceOf incoming = { entry with source := incoming.source } :=
        if_pos hsource
      rw [withSourceOf_eq_self_iff, htaken]
      exact (Classical.em (incoming.source = "")).symm

theorem not_contradictsSource_withSourceOf {entry incoming : Entry}
    (h : entry.contradictsSource incoming = false) :
    (entry.withSourceOf incoming).contradictsSource incoming = false := by
  unfold withSourceOf
  split
  · rw [contradictsSource, bne_self_eq_false, Bool.and_false]
  · exact h

/-- Extending a second time: after a contradiction the entry stays what it
is, and otherwise only a block of the extra comment may be added. -/
theorem extend_extend (entry incoming : Entry) :
    ((entry.extend incoming).1.extend incoming).1
      = if (entry.extend incoming).2.isSome then (entry.extend incoming).1
        else (entry.extend incoming).1.withBlock incoming.extraComment := by
  cases hsource : entry.contradictsSource incoming with
  | true =>
      have hrefused : entry.extend incoming = (entry, some (.contradictingSource entry.id)) :=
        if_pos hsource
      rw [hrefused]
      exact congrArg Prod.fst hrefused
  | false =>
      cases hdata : entry.contradictsData incoming with
      | true =>
          have hagain : (entry.withSourceOf incoming).contradictsData incoming = true := by
            rwa [withSourceOf_eq]
          have hrefused {e : Entry} (hs : e.contradictsSource incoming = false)
              (hd : e.contradictsData incoming = true) :
              (e.extend incoming).1 = e.withSourceOf incoming
                ∧ (e.extend incoming).2.isSome = true := by
            rw [extend, hs, hd]
            exact ⟨rfl, rfl⟩
          obtain ⟨hfirst, hremark⟩ := hrefused hsource hdata
          rw [hremark, if_pos rfl, hfirst,
            (hrefused (not_contradictsSource_withSourceOf hsource) hagain).1,
            withSourceOf_withSourceOf]
      | false =>
          have hjoined : entry.extend incoming = (entry.joined incoming, none) := by
            rw [extend, hsource, hdata]
            rfl
          rw [hjoined]
          exact congrArg Prod.fst (extend_of_includes (includes_joined hsource hdata))

end Entry

/-! ## Stores -/

namespace Store

/-- What a look-up asks an index for first. -/
def askedKey (entry : Entry) : IndexKey :=
  if entry.id = "" then .content entry.contentKey else .id entry.id

/-- An entry that was just put in is located under the first key that a
look-up asks for. -/
theorem locate_of_put {store : Store} {index : Index} {position : Nat} {entry filed : Entry}
    (hindex : store.index = index.put position filed)
    (hfiled : filed.isFiledUnder (askedKey entry) = true) :
    store.locate entry = some position := by
  have hposition : store.index.position? (askedKey entry) = some position := by
    rw [hindex, Index.position?_put, if_pos hfiled]
  unfold askedKey at hposition
  unfold locate
  split at hposition
  · next hid =>
    rw [String.isEmpty_iff.mpr hid]
    exact hposition
  · next hid =>
    have hlookup : store.index.ofId? entry.id = some position := hposition
    simp only [hlookup, if_neg (mt String.isEmpty_iff.mp hid)]

/-- Where an entry is located depends on the index and on the ids. -/
theorem locate_congr {a b : Store} (hindex : a.index = b.index)
    (hids : a.entries.map Entry.id = b.entries.map Entry.id) (entry : Entry) :
    a.locate entry = b.locate entry := by
  have hwithout (position : Nat) : (a.entries[position]?).any (fun e => e.id.isEmpty)
      = (b.entries[position]?).any fun e => e.id.isEmpty := by
    have hid := congrArg (fun ids : List String => (ids[position]?).any String.isEmpty) hids
    simpa only [List.getElem?_map, Option.any_map] using hid
  unfold locate
  simp only [hindex, hwithout]

theorem find_of_fresh {store : Store} (h : store.fresh = true) (entry : Entry) :
    (store.find entry).1 = store.locate entry := by
  have hsame : store.refreshed = store := if_pos h
  rw [find, hsame]

theorem isFiledUnder_askedKey {entry : Entry} (hplaceholder : entry.isPlaceholder = false) :
    entry.isFiledUnder (askedKey entry) = true := by
  unfold askedKey
  split
  · exact Entry.isFiledUnder_content.mpr ⟨hplaceholder, rfl⟩
  · next hid => exact Entry.isFiledUnder_id.mpr ⟨hid, rfl⟩

/-- An entry that matches another one without having a source text has its
id. -/
theorem id_of_matches {entry found : Entry} (hplaceholder : entry.isPlaceholder = false)
    (hmatches : entry.Matches found) (hsource : found.source = "") :
    entry.id ≠ "" ∧ found.id = entry.id := by
  rcases hmatches with hid | ⟨hkey, hfound, hwithout⟩
  · exact hid
  · exfalso
    have hsame : found.source = entry.source := congrArg ContentKey.source hkey
    have hfoundId : found.id ≠ "" := by
      simpa [Entry.isPlaceholder, hsource] using hfound
    have hentryId : entry.id ≠ "" := by
      simpa [Entry.isPlaceholder, ← hsame, hsource] using hplaceholder
    exact hwithout.elim hentryId hfoundId

variable {store : Store} {incoming : Entry}

theorem find_extend_of_not_found (hplaceholder : incoming.isPlaceholder = false)
    (hposition : (store.find incoming).1 = none) :
    ((store.extend incoming).1.find incoming).1 = some store.entries.length := by
  have hextended : (store.extend incoming).1 = store.refreshed.append incoming := by
    unfold find at hposition
    dsimp only at hposition
    simp only [extend, find, hposition]
  have happended : (store.refreshed.append incoming).fresh = true
      ∧ (store.refreshed.append incoming).index
        = store.refreshed.index.put store.entries.length incoming := by
    rw [← entries_refreshed store]
    simp only [append, insert, Nat.min_self, fresh_refreshed, beq_self_eq_true, Bool.and_self,
      if_true]
    exact ⟨fresh_refreshed store, trivial⟩
  obtain ⟨hfresh, hindex⟩ := happended
  rw [hextended, find_of_fresh hfresh]
  exact locate_of_put hindex (isFiledUnder_askedKey hplaceholder)

/-- What extending does to the index, where an entry is found. -/
theorem index_extend_of_found {position : Nat} {old : Entry}
    (hposition : (store.find incoming).1 = some position)
    (hold : store.entries[position]? = some old) :
    (store.extend incoming).1.fresh = true
      ∧ (store.extend incoming).1.index
        = if old.source.isEmpty then
            (store.refreshed.index.remove old).put position (old.withSourceOf incoming)
          else store.refreshed.index := by
  rw [← entries_refreshed store] at hold
  unfold find at hposition
  dsimp only at hposition
  simp only [extend, find, hposition, hold]
  exact ⟨fresh_refreshed store, trivial⟩

/-- What was found and extended is found in the same place. -/
theorem find_extend_of_found (hsound : store.refreshed.index.Sound store.refreshed.entries)
    (hplaceholder : incoming.isPlaceholder = false) {position : Nat} {old : Entry}
    (hposition : (store.find incoming).1 = some position)
    (hold : store.entries[position]? = some old) :
    ((store.extend incoming).1.find incoming).1 = some position := by
  obtain ⟨hfresh, hindex⟩ := index_extend_of_found hposition hold
  obtain ⟨hentries, -⟩ := extend_of_found hposition hold
  have hlocate : store.refreshed.locate incoming = some position := hposition
  rw [find_of_fresh hfresh]
  cases hsource : old.source.isEmpty with
  | true =>
      -- the entry is filed anew, and under its id, since it had no source text
      rw [hsource, if_pos rfl] at hindex
      obtain ⟨found, hfound, hmatches⟩ := matches_of_locate hsound hlocate
      rw [entries_refreshed, hold] at hfound
      cases hfound
      obtain ⟨hid, hsame⟩ :=
        id_of_matches hplaceholder hmatches (String.isEmpty_iff.mp hsource)
      have hkept : (old.withSourceOf incoming).id = incoming.id :=
        (old.grows_withSourceOf incoming).id.trans hsame
      refine locate_of_put hindex ?_
      rw [askedKey, if_neg hid]
      exact Entry.isFiledUnder_id.mpr ⟨hkept ▸ hid, hkept⟩
  | false =>
      rw [hsource, if_neg Bool.false_ne_true] at hindex
      rw [← hlocate]
      refine locate_congr hindex ?_ incoming
      obtain ⟨hinside, rfl⟩ := List.getElem?_eq_some_iff.mp hold
      rw [hentries, entries_refreshed, List.map_set, (Entry.grows_extend _ incoming).id,
        ← List.map_set, List.set_getElem_self]

/-- What a second look-up finds: the extended entry, or the incoming one,
which both have joined its extra comment to what there was. -/
theorem exists_found_extend (hsound : store.refreshed.index.Sound store.refreshed.entries)
    (hplaceholder : incoming.isPlaceholder = false) :
    ∃ position entry, ((store.extend incoming).1.find incoming).1 = some position
      ∧ (store.extend incoming).1.entries[position]? = some entry
      ∧ (entry.extend incoming).1
          = (if (store.extend incoming).2.isSome then entry
            else entry.withBlock incoming.extraComment)
      ∧ ((store.extend incoming).2 = none → ∃ known,
          (known = "" ∨ ∃ old ∈ store.entries, old.extraComment = known)
            ∧ entry.extraComment = Entry.joinedComment known incoming.extraComment) := by
  cases hposition : (store.find incoming).1 with
  | none =>
      have hremark : (store.extend incoming).2 = none := by
        by_contra hsome
        obtain ⟨remark, hremark⟩ := Option.ne_none_iff_exists'.mp hsome
        obtain ⟨position, found, hfound, -⟩ := exists_found_of_remark hremark
        cases hposition.symm.trans hfound
      refine ⟨store.entries.length, incoming,
        find_extend_of_not_found hplaceholder hposition, ?_, ?_, ?_⟩
      · rw [entries_extend_of_not_found hposition, List.getElem?_concat_length]
      · rw [hremark]
        exact congrArg Prod.fst (Entry.extend_of_includes (Entry.includes_self incoming))
      · intro _
        refine ⟨"", .inl rfl, ?_⟩
        unfold Entry.joinedComment
        split
        · next hempty => exact String.isEmpty_iff.mp hempty
        · rfl
  | some position =>
      have hlocate : store.refreshed.locate incoming = some position := hposition
      obtain ⟨old, hold, -⟩ := matches_of_locate hsound hlocate
      rw [entries_refreshed] at hold
      obtain ⟨hentries, hremark⟩ := extend_of_found hposition hold
      refine ⟨position, (old.extend incoming).1,
        find_extend_of_found hsound hplaceholder hposition hold, ?_, ?_, ?_⟩
      · rw [hentries]
        exact List.getElem?_set_self (List.getElem?_eq_some_iff.mp hold).1
      · rw [hremark]
        exact Entry.extend_extend old incoming
      · intro hnone
        rw [hremark] at hnone
        refine ⟨old.extraComment, .inr ⟨old, List.mem_of_getElem? hold, rfl⟩, ?_⟩
        rcases old.extend_cases incoming with hjoined | ⟨-, _, hrefused⟩
        · obtain ⟨_, _, _, heq, -⟩ := Entry.exists_joined old incoming
          rw [hjoined, heq]
        · rw [hrefused] at hnone
          cases hnone

end Store

theorem set_eq_self_iff {entries : List Entry} {position : Nat} {old new : Entry}
    (hold : entries[position]? = some old) : entries.set position new = entries ↔ new = old := by
  obtain ⟨hinside, rfl⟩ := List.getElem?_eq_some_iff.mp hold
  constructor
  · intro hsame
    rw [← List.getElem_set_self (a := new) (by rwa [List.length_set])]
    exact List.getElem_of_eq hsame _
  · rintro rfl
    exact List.set_getElem_self hinside

/-- After any run, extending by an entry that is no placeholder is followed
by finding what it led to again.  The second time nothing is changed but
perhaps the extra comment of that entry.  It is changed unless there was
a contradiction, or there is nothing to add, or what there is to add is read
as a block; and that comes to its being a single block, if no text was
stored that cuts off a separator. -/
theorem Store.entries_extend_extend {catalog : Catalog} {operations : List Operation}
    {store : Store} (hrun : (Store.ofCatalog catalog).run operations = store) {incoming : Entry}
    (hplaceholder : incoming.isPlaceholder = false) :
    ∃ position entry, ((store.extend incoming).1.find incoming).1 = some position
      ∧ (store.extend incoming).1.entries[position]? = some entry
      ∧ ((store.extend incoming).1.extend incoming).1.entries
          = (store.extend incoming).1.entries.set position
              (if (store.extend incoming).2.isSome then entry
                else entry.withBlock incoming.extraComment)
      ∧ (((store.extend incoming).1.extend incoming).1.entries = (store.extend incoming).1.entries
          ↔ (store.extend incoming).2.isSome = true ∨ incoming.extraComment = ""
            ∨ incoming.extraComment ∈ blocks commentSeparator entry.extraComment)
      ∧ ((∀ known ∈ store.entries, ¬ CutsSeparator known.extraComment.toList) →
          (((store.extend incoming).1.extend incoming).1.entries
              = (store.extend incoming).1.entries
            ↔ (store.extend incoming).2.isSome = true
              ∨ ¬ Entry.HasSeparator incoming.extraComment)) := by
  have hsound := Store.isKept_sound.run (Store.runsWithin_true operations _) hrun
  obtain ⟨position, entry, hfound, hentry, hextended, hcomment⟩ :=
    Store.exists_found_extend hsound hplaceholder
  have hentries := (Store.extend_of_found hfound hentry).1
  rw [hextended] at hentries
  have hsame : ((store.extend incoming).1.extend incoming).1.entries
        = (store.extend incoming).1.entries
      ↔ (store.extend incoming).2.isSome = true ∨ incoming.extraComment = ""
        ∨ incoming.extraComment ∈ blocks commentSeparator entry.extraComment := by
    rw [hentries, set_eq_self_iff hentry]
    split
    · next hremark => exact iff_of_true rfl (.inl hremark)
    · next hremark =>
      rw [Entry.withBlock_eq_self_iff]
      exact (or_iff_right hremark).symm
  refine ⟨position, entry, hfound, hentry, hentries, hsame, ?_⟩
  intro hwhole
  rw [hsame]
  refine or_congr_right' fun hremark => ?_
  obtain ⟨known, hknown, hjoined⟩ := hcomment (Option.not_isSome_iff_eq_none.mp hremark)
  have hcut : ¬ CutsSeparator known.toList := by
    rcases hknown with rfl | ⟨old, hold, rfl⟩
    · exact fun hcuts => absurd (List.suffix_nil.mp hcuts) (by decide)
    · exact hwhole old hold
  by_cases hempty : incoming.extraComment = ""
  · rw [hempty]
    refine iff_of_true (.inl rfl) fun hseparator => ?_
    exact commentSeparator_ne_nil (List.infix_nil.mp hseparator)
  · rw [or_iff_right hempty, hjoined, Entry.mem_blocks_joinedComment_iff hcut hempty]

/-- A menu entry as a first scan found it. -/
def menuEntry : Catalog where
  entries := [{ context := "Dialog", source := "Open", extraComment := "menu entry"
                file := some ⟨"dialog.cpp"⟩, line := 10 }]

/-- Another place where its text is used. -/
def toolbarButton : Entry :=
  { context := "Dialog", source := "Open", extraComment := "toolbar button"
    file := some ⟨"toolbar.cpp"⟩, line := 3 }

theorem Store.entries_extend_extend_toolbarButton :
    toolbarButton.isPlaceholder = false
      ∧ (∀ known ∈ menuEntry.entries, ¬ CutsSeparator known.extraComment.toList)
      ∧ ¬ Entry.HasSeparator toolbarButton.extraComment
      ∧ ((((Store.ofCatalog menuEntry).extend toolbarButton).1.extend toolbarButton).1.entries
          = ((Store.ofCatalog menuEntry).extend toolbarButton).1.entries) := by
  have hplaceholder : toolbarButton.isPlaceholder = false := by decide
  have hwhole : ∀ known ∈ menuEntry.entries, ¬ CutsSeparator known.extraComment.toList := by
    unfold CutsSeparator
    decide
  have hsingle : ¬ Entry.HasSeparator toolbarButton.extraComment := by
    unfold Entry.HasSeparator
    decide
  obtain ⟨_, _, -, -, -, -, hsame⟩ :=
    Store.entries_extend_extend (rfl : (Store.ofCatalog menuEntry).run [] = _) hplaceholder
  exact ⟨hplaceholder, hwhole, hsingle, (hsame hwhole).mpr (.inr hsingle)⟩

/-- An entry that brings both blocks in one extra comment. -/
def twoUses : Entry :=
  { context := "Dialog", source := "Open"
    extraComment := "menu entry\n----------\ntoolbar button" }

/-- It does not recognise its own comment. -/
theorem Store.entries_extend_extend_twoUses_ne :
    twoUses.isPlaceholder = false
      ∧ (((Store.ofCatalog {}).extend twoUses).1.extend twoUses).1.entries
        ≠ ((Store.ofCatalog {}).extend twoUses).1.entries := by
  decide +kernel

end MessageCatalog
