/-
# `MessageCatalog.Proofs.TranslatorWork` — what extending leaves alone

A scan of the sources brings in entries that may be in the catalog already,
with all that translators have written into them.  Extending adds to such an
entry and takes nothing away:

    the source text, the extension values     where there were none
    a reference                               behind the known ones
    a block of the extra comment              behind the known ones

All else of the entry stays what it is (`Entry.Grows`), and so do all other
entries, also where the two entries contradict each other and however stale
the index is that the entry was found by.
-/
import MessageCatalog.Proofs.Extending
import MessageCatalog.Proofs.SortedInsertion

namespace MessageCatalog

namespace Entry

/-- What became of an entry that another one was to be added to: it has all
that it had, and what is new stands where there was nothing or behind what
there was. -/
structure Grows (incoming old new : Entry) : Prop where
  id : new.id = old.id
  context : new.context = old.context
  comment : new.comment = old.comment
  oldSource : new.oldSource = old.oldSource
  oldComment : new.oldComment = old.oldComment
  userData : new.userData = old.userData
  translatorComment : new.translatorComment = old.translatorComment
  warning : new.warning = old.warning
  warningOnly : new.warningOnly = old.warningOnly
  translations : new.translations = old.translations
  state : new.state = old.state
  plural : new.plural = old.plural
  catalogLine : new.catalogLine = old.catalogLine
  source : new.source = old.source ∨ old.source = "" ∧ new.source = incoming.source
  extras : new.extras = old.extras ∨ old.extras.isEmpty = true ∧ new.extras = incoming.extras
  references : old.references <+: new.references
  extraComment : ∃ added, new.extraComment = old.extraComment ++ added

/-! ## The parts that grow -/

theorem source_withSourceOf (entry incoming : Entry) :
    (entry.withSourceOf incoming).source = entry.source
      ∨ entry.source = "" ∧ (entry.withSourceOf incoming).source = incoming.source := by
  unfold withSourceOf
  split
  · next hempty => exact .inr ⟨String.isEmpty_iff.mp hempty, rfl⟩
  · exact .inl rfl

/-- Only the source text is taken over. -/
theorem withSourceOf_eq (entry incoming : Entry) :
    entry.withSourceOf incoming
      = { entry with source := (entry.withSourceOf incoming).source } := by
  unfold withSourceOf
  split
  · rfl
  · rfl

/-- A reference is added behind all others, and nothing else is changed. -/
theorem exists_addNewReference (entry : Entry) (reference : Reference) :
    ∃ file line extraReferences,
      entry.addNewReference reference = { entry with file, line, extraReferences }
        ∧ entry.references <+: (entry.addNewReference reference).references := by
  unfold addNewReference
  split
  · exact ⟨_, _, _, rfl, List.prefix_rfl⟩
  · unfold addReference references
    cases hfile : entry.file with
    | some file => exact ⟨_, _, _, rfl, List.prefix_append (⟨file, entry.line⟩ :: _) [reference]⟩
    | none => exact ⟨_, _, _, rfl, List.nil_prefix⟩

theorem exists_joinedComment (known added : String) :
    ∃ block, joinedComment known added = known ++ block := by
  unfold joinedComment
  split
  · exact ⟨"", String.append_empty.symm⟩
  · split
    · next hempty =>
      rw [String.isEmpty_iff.mp hempty]
      exact ⟨added, String.empty_append.symm⟩
    · split
      · exact ⟨"", String.append_empty.symm⟩
      · exact ⟨commentSeparator ++ added, String.append_assoc⟩

/-! ## Entries -/

theorem grows_withSourceOf (entry incoming : Entry) :
    Grows incoming entry (entry.withSourceOf incoming) := by
  have hsource := source_withSourceOf entry incoming
  rw [withSourceOf_eq]
  exact ⟨rfl, rfl, rfl, rfl, rfl, rfl, rfl, rfl, rfl, rfl, rfl, rfl, rfl, hsource, .inl rfl,
    List.prefix_rfl, "", String.append_empty.symm⟩

/-- A joined entry differs in what it took over and in its references, which
are the old ones and perhaps one more. -/
theorem exists_joined (entry incoming : Entry) :
    ∃ file line extraReferences,
      entry.joined incoming
          = { entry with
              source := (entry.withSourceOf incoming).source
              extras := if entry.extras.isEmpty then incoming.extras else entry.extras
              extraComment := joinedComment entry.extraComment incoming.extraComment
              file, line, extraReferences }
        ∧ entry.references <+: (entry.joined incoming).references := by
  unfold joined
  rw [withSourceOf_eq]
  cases incoming.file with
  | none => exact ⟨_, _, _, rfl, List.prefix_rfl⟩
  | some file =>
      dsimp only
      obtain ⟨first, line, others, heq, hreferences⟩ :=
        exists_addNewReference
          { entry with
            source := (entry.withSourceOf incoming).source
            extras := if entry.extras.isEmpty then incoming.extras else entry.extras }
          ⟨file, incoming.line⟩
      rw [heq] at hreferences ⊢
      exact ⟨first, line, others, rfl, hreferences⟩

theorem grows_joined (entry incoming : Entry) : Grows incoming entry (entry.joined incoming) := by
  have hsource := source_withSourceOf entry incoming
  have hcomment := exists_joinedComment entry.extraComment incoming.extraComment
  obtain ⟨file, line, others, heq, hreferences⟩ := exists_joined entry incoming
  have hextras : (entry.joined incoming).extras = entry.extras
      ∨ entry.extras.isEmpty = true ∧ (entry.joined incoming).extras = incoming.extras := by
    rw [heq]
    dsimp only
    split
    · next hempty => exact .inr ⟨hempty, rfl⟩
    · exact .inl rfl
  rw [heq] at hextras hreferences ⊢
  exact ⟨rfl, rfl, rfl, rfl, rfl, rfl, rfl, rfl, rfl, rfl, rfl, rfl, rfl, hsource, hextras,
    hreferences, hcomment⟩

/-- Whether or not the two entries contradict each other, the entry grows. -/
theorem grows_extend (entry incoming : Entry) :
    Grows incoming entry (entry.extend incoming).1 := by
  rcases entry.extend_cases incoming with hjoined | ⟨-, _, hrefused⟩
  · rw [hjoined]
    exact grows_joined entry incoming
  · rw [hrefused]
    exact grows_withSourceOf entry incoming

end Entry

/-! ## Stores -/

namespace Store

variable {store : Store} {incoming : Entry}

theorem entries_extend_of_not_found (hposition : (store.find incoming).1 = none) :
    (store.extend incoming).1.entries = store.entries ++ [incoming] := by
  unfold find at hposition
  dsimp only at hposition
  rw [← entries_refreshed store]
  simp only [extend, find, hposition]
  rw [append, entries_insert, Nat.min_self, List.insertIdx_length_self]

/-- A position behind the end, which only a wrong index gives. -/
theorem entries_extend_of_no_entry {position : Nat}
    (hposition : (store.find incoming).1 = some position)
    (hold : store.entries[position]? = none) :
    (store.extend incoming).1.entries = store.entries := by
  unfold find at hposition
  dsimp only at hposition
  rw [← entries_refreshed store] at hold ⊢
  simp only [extend, find, hposition, hold]

end Store

/-- An entry that nothing matches is appended as it is.  Any other one makes
the entry that was found grow where it stands, and no other entry is
touched. -/
theorem Store.grows_extend_or_append (store : Store) (incoming : Entry) :
    ((store.find incoming).1 = none
        ∧ (store.extend incoming).1.entries = store.entries ++ [incoming])
      ∨ ∃ position, (store.find incoming).1 = some position
          ∧ (store.extend incoming).1.entries.length = store.entries.length
          ∧ (∀ other, other ≠ position →
              (store.extend incoming).1.entries[other]? = store.entries[other]?)
          ∧ ∀ old, store.entries[position]? = some old →
              ∃ new, (store.extend incoming).1.entries[position]? = some new
                ∧ Entry.Grows incoming old new := by
  cases hposition : (store.find incoming).1 with
  | none => exact .inl ⟨rfl, entries_extend_of_not_found hposition⟩
  | some position =>
      refine .inr ⟨position, rfl, ?_⟩
      cases hold : store.entries[position]? with
      | none =>
          rw [entries_extend_of_no_entry hposition hold]
          exact ⟨rfl, fun _ _ => rfl, nofun⟩
      | some old =>
          obtain ⟨hentries, -⟩ := extend_of_found hposition hold
          obtain ⟨hinside, -⟩ := List.getElem?_eq_some_iff.mp hold
          rw [hentries]
          refine ⟨List.length_set, fun other hother => List.getElem?_set_ne hother.symm, ?_⟩
          rintro _ ⟨⟩
          exact ⟨_, List.getElem?_set_self hinside, old.grows_extend incoming⟩

end MessageCatalog
