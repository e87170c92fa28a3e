/-
# `MessageCatalog.Proofs.Extending` — contradictions

Extending an entry meets a contradiction at one of two points:

    different source texts         before anything is changed
    different extension values     after the source text was taken over

Either is remarked on, and nothing more is added to the entry.  So all that
a store can lose to a contradiction is that an entry had no source text: it
has the incoming one then, although the two entries do not belong together.
The entry of `flagged` is such a one.
-/
import MessageCatalog.Catalog.Merge

namespace MessageCatalog

/-! ## Entries -/

namespace Entry

theorem withSourceOf_of_source {entry incoming : Entry} (h : entry.source.isEmpty = false) :
    entry.withSourceOf incoming = entry := by
  unfold withSourceOf
  rw [h]
  rfl

theorem withSourceOf_eq_self_iff {entry incoming : Entry} :
    entry.withSourceOf incoming = entry ↔ entry.source ≠ "" ∨ incoming.source = "" := by
  cases hsource : entry.source.isEmpty with
  | false =>
      have hne := String.isEmpty_eq_false_iff.mp hsource
      exact iff_of_true (withSourceOf_of_source hsource) (.inl hne)
  | true =>
      have htaken : entry.withSourceOf incoming = { entry with source := incoming.source } :=
        if_pos hsource
      rw [String.isEmpty_iff] at hsource
      rw [htaken]
      constructor
      · intro h
        have hsame := congrArg Entry.source h
        exact .inr (Eq.trans hsame hsource)
      · rintro (h | h)
        · exact absurd hsource h
        · rw [h, ← hsource]

theorem source_of_contradictsSource {entry incoming : Entry}
    (h : entry.contradictsSource incoming = true) : entry.source.isEmpty = false := by
  unfold contradictsSource at h
  cases hsource : entry.source.isEmpty with
  | false => rfl
  | true =>
      rw [hsource] at h
      cases h

/-- An entry is extended in full, or it only takes the source text and the
contradiction is remarked on. -/
theorem extend_cases (entry incoming : Entry) :
    entry.extend incoming = (entry.joined incoming, none)
      ∨ (entry.contradictsSource incoming = true ∨ entry.contradictsData incoming = true)
        ∧ ∃ remark, entry.extend incoming = (entry.withSourceOf incoming, some remark) := by
  unfold extend
  cases hsource : entry.contradictsSource incoming with
  | true =>
      rw [withSourceOf_of_source (source_of_contradictsSource hsource)]
      exact .inr ⟨.inl rfl, _, rfl⟩
  | false =>
      cases hdata : entry.contradictsData incoming with
      | true => exact .inr ⟨.inr rfl, _, rfl⟩
      | false => exact .inl rfl

end Entry

/-! ## Stores -/

namespace Store

/-- Where an entry is found, that one is extended in its place. -/
theorem extend_of_found {store : Store} {incoming found : Entry} {position : Nat}
    (hposition : (store.find incoming).1 = some position)
    (hfound : store.entries[position]? = some found) :
    (store.extend incoming).1.entries = store.entries.set position (found.extend incoming).1
      ∧ (store.extend incoming).2 = (found.extend incoming).2 := by
  rw [← entries_refreshed store] at hfound ⊢
  unfold find at hposition
  dsimp only at hposition
  simp only [extend, find, hposition, hfound]
  exact ⟨rfl, trivial⟩

/-- Only what is said of an entry that was found is remarked on. -/
theorem exists_found_of_remark {store : Store} {incoming : Entry} {remark : Remark}
    (h : (store.extend incoming).2 = some remark) :
    ∃ position found, (store.find incoming).1 = some position
      ∧ store.entries[position]? = some found := by
  rw [← entries_refreshed]
  unfold extend at h
  unfold find at h ⊢
  cases hposition : store.refreshed.locate incoming with
  | none =>
      rw [hposition] at h
      cases h
  | some position =>
      rw [hposition] at h
      dsimp only at h
      cases hfound : store.refreshed.entries[position]? with
      | none =>
          rw [hfound] at h
          cases h
      | some found => exact ⟨position, found, rfl, hfound⟩

/-- A contradiction costs the entries nothing but that the contradicted one
may have had no source text. -/
theorem entries_extend_of_remark {store : Store} {incoming : Entry} {remark : Remark}
    (h : (store.extend incoming).2 = some remark) :
    ∃ position found, (store.find incoming).1 = some position
      ∧ store.entries[position]? = some found
      ∧ (found.contradictsSource incoming = true ∨ found.contradictsData incoming = true)
      ∧ (store.extend incoming).1.entries
          = store.entries.set position (found.withSourceOf incoming)
      ∧ ((store.extend incoming).1.entries = store.entries
          ↔ found.source ≠ "" ∨ incoming.source = "") := by
  obtain ⟨position, found, hposition, hfound⟩ := exists_found_of_remark h
  obtain ⟨hentries, hremark⟩ := extend_of_found hposition hfound
  rw [hremark] at h
  rcases found.extend_cases incoming with hjoined | ⟨hcontradicts, _, hrefused⟩
  · rw [hjoined] at h
    cases h
  · rw [hrefused] at hentries
    refine ⟨position, found, hposition, hfound, hcontradicts, hentries, ?_⟩
    obtain ⟨hinside, hget⟩ := List.getElem?_eq_some_iff.mp hfound
    rw [hentries, ← Entry.withSourceOf_eq_self_iff]
    constructor
    · intro hsame
      have hplace := List.getElem?_set_self (a := found.withSourceOf incoming) hinside
      rw [hsame, hfound] at hplace
      exact (Option.some.inj hplace).symm
    · intro hsame
      rw [hsame, ← hget, List.set_getElem_self]

end Store

/-- An entry without a source text, as it is written for its id alone. -/
def flagged : Catalog where
  entries := [{ id := "open", extras := .ofList [("po-flags", "c-format")] }]

/-- What another scan has to say about that id. -/
def contradicting : Entry :=
  { id := "open", source := "Open", extras := .ofList [("po-flags", "qt-format")] }

theorem Store.entries_extend_of_remark_flagged :
    ((Store.ofCatalog flagged).extend contradicting).2 = some (.contradictingDataOfId "open")
      ∧ ∃ found ∈ flagged.entries,
        ((Store.ofCatalog flagged).extend contradicting).1.entries
          = [found.withSourceOf contradicting] := by
  have hremark : ((Store.ofCatalog flagged).extend contradicting).2
      = some (.contradictingDataOfId "open") := by
    decide +kernel
  obtain ⟨position, found, hposition, hfound, -, hentries, -⟩ :=
    Store.entries_extend_of_remark hremark
  have hfirst : ((Store.ofCatalog flagged).find contradicting).1 = some 0 := by decide +kernel
  cases hfirst.symm.trans hposition
  exact ⟨hremark, found, List.mem_of_getElem? hfound, hentries⟩

/-- The contradiction is remarked on, and the entries are not what they
were. -/
theorem Store.entries_extend_flagged_ne :
    ((Store.ofCatalog flagged).extend contradicting).2.isSome = true
      ∧ ((Store.ofCatalog flagged).extend contradicting).1.entries
        ≠ (Store.ofCatalog flagged).entries := by
  decide +kernel

end MessageCatalog
