/-
# `MessageCatalog.Proofs.Indexing` — an index and the entries it stands for

An index files an entry under its contents and its id, and a placeholder
under its context.  Taken as one map from keys to positions (`position?`), it
changes under exactly the keys of the entry that is put in or taken out:

    (put p e) at k   =  p         if e is filed under k, else as before
    (remove e) at k  =  no more   if e is filed under k, else as before

With these two laws the three maps need not be told apart any longer.

An index can fail its entries in two ways.  It is sound for them if it leads
only to entries that are filed under the key that was asked for, and it
covers them if it leads somewhere under every key of theirs.  Soundness is
kept by all that a store does.  Covering is not: taking out an entry forgets
its keys even where another entry has them too (`Spares`).
-/
import MessageCatalog.Catalog.Index

namespace MessageCatalog

/-! ## Keys -/

/-- A key of an index, of one of its three maps. -/
inductive IndexKey where
  | content (key : ContentKey)
  | id (id : String)
  | context (context : String)
deriving DecidableEq, Repr

/-- An index files the entry under the key. -/
def Entry.isFiledUnder (entry : Entry) : IndexKey → Bool
  | .content key => !entry.isPlaceholder && entry.contentKey == key
  | .id id => !entry.id.isEmpty && entry.id == id
  | .context context => entry.isPlaceholder && entry.context == context

namespace Index

/-- The position that an index gives for a key. -/
def position? (index : Index) : IndexKey → Option Nat
  | .content key => index.ofContent? key
  | .id id => index.ofId? id
  | .context context => index.ofContext? context

theorem position?_empty (key : IndexKey) : ({} : Index).position? key = none := by
  cases key <;> rfl

section

variable {α : Type} [DecidableEq α]

theorem lookup_first (known asked : α) (position : Nat) (rest : List (α × Nat)) :
    ((known, position) :: rest).lookup asked
      = if known = asked then some position else rest.lookup asked := by
  by_cases h : known = asked
  · simp [h]
  · have hother : (asked == known) = false := beq_eq_false_iff_ne.mpr (Ne.symm h)
    simp [List.lookup_cons, hother, h]

/-- Forgetting a key takes away its own positions and no others. -/
theorem lookup_forget (key asked : α) (positions : List (α × Nat)) :
    (forget key positions).lookup asked = if key = asked then none else positions.lookup asked := by
  unfold forget
  induction positions with
  | nil => simp
  | cons known rest ih =>
      obtain ⟨known, position⟩ := known
      rw [List.filter_cons, lookup_first]
      by_cases hknown : known = key
      · subst hknown
        simp only [ne_eq, not_true_eq_false, decide_false, Bool.false_eq_true, if_false, ih]
        split
        · rfl
        · rfl
      · simp only [ne_eq, hknown, not_false_eq_true, decide_true, if_true, lookup_first, ih]
        by_cases hasked : known = asked
        · have hkey : key ≠ asked := fun heq => hknown (hasked.trans heq.symm)
          simp [hasked, hkey]
        · simp [hasked]

end

theorem id_isEmpty_of_isPlaceholder {entry : Entry} (h : entry.isPlaceholder = true) :
    entry.id.isEmpty = true := by
  unfold Entry.isPlaceholder at h
  exact (Bool.and_eq_true_iff.mp h).2

/-- Putting in an entry changes the positions of its own keys. -/
theorem position?_put (index : Index) (position : Nat) (entry : Entry) (key : IndexKey) :
    (index.put position entry).position? key
      = if entry.isFiledUnder key then some position else index.position? key := by
  unfold put
  cases hplaceholder : entry.isPlaceholder with
  | true =>
      have hid := id_isEmpty_of_isPlaceholder hplaceholder
      cases key with
      | content key => simp [position?, ofContent?, Entry.isFiledUnder, hplaceholder]
      | id id => simp [position?, ofId?, Entry.isFiledUnder, hid]
      | context context =>
          simp [position?, ofContext?, Entry.isFiledUnder, hplaceholder, lookup_first]
  | false =>
      cases key with
      | content key => simp [position?, ofContent?, Entry.isFiledUnder, hplaceholder, lookup_first]
      | id id =>
          cases hid : entry.id.isEmpty with
          | true => simp [position?, ofId?, Entry.isFiledUnder, hid]
          | false => simp [position?, ofId?, Entry.isFiledUnder, hid, lookup_first]
      | context context => simp [position?, ofContext?, Entry.isFiledUnder, hplaceholder]

/-- Taking out an entry forgets its own keys. -/
theorem position?_remove (index : Index) (entry : Entry) (key : IndexKey) :
    (index.remove entry).position? key
      = if entry.isFiledUnder key then none else index.position? key := by
  unfold remove
  cases hplaceholder : entry.isPlaceholder with
  | true =>
      have hid := id_isEmpty_of_isPlaceholder hplaceholder
      cases key with
      | content key => simp [position?, ofContent?, Entry.isFiledUnder, hplaceholder]
      | id id => simp [position?, ofId?, Entry.isFiledUnder, hid]
      | context context =>
          simp [position?, ofContext?, Entry.isFiledUnder, hplaceholder, lookup_forget]
  | false =>
      cases key with
      | content key =>
          simp [position?, ofContent?, Entry.isFiledUnder, hplaceholder, lookup_forget]
      | id id =>
          cases hid : entry.id.isEmpty with
          | true => simp [position?, ofId?, Entry.isFiledUnder, hid]
          | false => simp [position?, ofId?, Entry.isFiledUnder, hid, lookup_forget]
      | context context => simp [position?, ofContext?, Entry.isFiledUnder, hplaceholder]

/-! ## Soundness -/

variable {index : Index} {entries : List Entry}

/-- An index leads only to entries that are filed under the key asked for. -/
def Sound (index : Index) (entries : List Entry) : Prop :=
  ∀ key position, index.position? key = some position →
    ∃ entry, entries[position]? = some entry ∧ entry.isFiledUnder key = true

theorem Sound.append (h : index.Sound entries) (entry : Entry) :
    (index.put entries.length entry).Sound (entries ++ [entry]) := by
  intro key position hposition
  rw [position?_put] at hposition
  split at hposition
  · next hfiled =>
    cases hposition
    exact ⟨entry, List.getElem?_concat_length, hfiled⟩
  · obtain ⟨known, hknown, hfiled⟩ := h key position hposition
    have hinside := (List.getElem?_eq_some_iff.mp hknown).1
    exact ⟨known, (List.getElem?_append_left hinside).trans hknown, hfiled⟩

/-- An entry in the place of another one, whose keys were forgotten.  All
that led to this place is forgotten with them, since it led there rightly. -/
theorem Sound.rekey (h : index.Sound entries) {position : Nat} {old : Entry}
    (hold : entries[position]? = some old) (new : Entry) :
    ((index.remove old).put position new).Sound (entries.set position new) := by
  intro key place hplace
  rw [position?_put] at hplace
  split at hplace
  · next hfiled =>
    cases hplace
    have hinside := (List.getElem?_eq_some_iff.mp hold).1
    exact ⟨new, List.getElem?_set_self hinside, hfiled⟩
  · rw [position?_remove] at hplace
    split at hplace
    · cases hplace
    · next hother =>
      obtain ⟨known, hknown, hfiled⟩ := h key place hplace
      have hne : position ≠ place := by
        intro heq
        rw [heq, hknown] at hold
        cases hold
        exact hother hfiled
      exact ⟨known, (List.getElem?_set_ne hne).trans hknown, hfiled⟩

/-- Changes that leave every entry under its keys. -/
theorem Sound.revise (h : index.Sound entries) {revised : List Entry}
    (hsame : revised.map Entry.isFiledUnder = entries.map Entry.isFiledUnder) :
    index.Sound revised := by
  intro key position hposition
  obtain ⟨known, hknown, hfiled⟩ := h key position hposition
  have hplace : (revised[position]?).map Entry.isFiledUnder = some known.isFiledUnder := by
    rw [← List.getElem?_map, hsame, List.getElem?_map, hknown]
    rfl
  obtain ⟨entry, hentry, hkeys⟩ := Option.map_eq_some_iff.mp hplace
  exact ⟨entry, hentry, by rw [hkeys, hfiled]⟩

/-! ## Covering -/

/-- An index leads somewhere under every key of every entry. -/
def Covers (index : Index) (entries : List Entry) : Prop :=
  ∀ entry ∈ entries, ∀ key, entry.isFiledUnder key = true → (index.position? key).isSome = true

/-- The entry at a position gives way to another one without giving up a key
that a third entry has. -/
def Spares (entries : List Entry) (position : Nat) (new : Entry) : Prop :=
  ∀ place old third key, place ≠ position →
    entries[position]? = some old → entries[place]? = some third →
      old.isFiledUnder key = true → third.isFiledUnder key = true → new.isFiledUnder key = true

theorem isSome_position?_put {position : Nat} {entry : Entry} {key : IndexKey}
    (h : entry.isFiledUnder key = true ∨ (index.position? key).isSome = true) :
    ((index.put position entry).position? key).isSome = true := by
  rw [position?_put]
  split
  · rfl
  · next hfiled => exact h.resolve_left hfiled

theorem Covers.append (h : index.Covers entries) (entry : Entry) :
    (index.put entries.length entry).Covers (entries ++ [entry]) := by
  intro known hknown key hfiled
  apply isSome_position?_put
  rcases List.mem_append.mp hknown with hmem | hmem
  · exact .inr (h known hmem key hfiled)
  · rw [List.mem_singleton.mp hmem] at hfiled
    exact .inl hfiled

theorem Covers.rekey (h : index.Covers entries) {position : Nat} {old new : Entry}
    (hold : entries[position]? = some old) (hspares : Spares entries position new) :
    ((index.remove old).put position new).Covers (entries.set position new) := by
  intro known hknown key hfiled
  apply isSome_position?_put
  obtain ⟨place, hplace⟩ := List.mem_iff_getElem?.mp hknown
  by_cases hne : place = position
  · subst hne
    have hinside := (List.getElem?_eq_some_iff.mp hold).1
    rw [List.getElem?_set_self hinside] at hplace
    cases hplace
    exact .inl hfiled
  · rw [List.getElem?_set_ne (Ne.symm hne)] at hplace
    cases hgone : old.isFiledUnder key with
    | true => exact .inl (hspares place old known key hne hold hplace hgone hfiled)
    | false =>
        right
        rw [position?_remove, hgone]
        exact h known (List.mem_of_getElem? hplace) key hfiled

theorem Covers.revise (h : index.Covers entries) {revised : List Entry}
    (hsame : revised.map Entry.isFiledUnder = entries.map Entry.isFiledUnder) :
    index.Covers revised := by
  intro entry hentry key hfiled
  have hkeys : entry.isFiledUnder ∈ entries.map Entry.isFiledUnder := by
    rw [← hsame]
    exact List.mem_map_of_mem hentry
  obtain ⟨known, hknown, hkeys⟩ := List.mem_map.mp hkeys
  exact h known hknown key (by rw [hkeys, hfiled])

/-! ## The index that is built anew -/

/-- What putting in one more entry keeps, putting in all of them keeps. -/
theorem putAll_induction {P : Index → List Entry → Prop}
    (hput : ∀ index entries entry, P index entries →
      P (index.put entries.length entry) (entries ++ [entry])) :
    ∀ (rest : List Entry) (index : Index) (entries : List Entry), P index entries →
      P (index.putAll entries.length rest) (entries ++ rest) := by
  intro rest
  induction rest with
  | nil =>
      intro index entries h
      rw [List.append_nil]
      exact h
  | cons entry rest ih =>
      intro index entries h
      have hrest := ih _ _ (hput index entries entry h)
      rw [List.length_append, List.append_assoc] at hrest
      exact hrest

theorem sound_of (entries : List Entry) : (Index.of entries).Sound entries := by
  refine putAll_induction (P := Sound) (fun _ _ entry h => h.append entry) entries {} [] ?_
  intro key position h
  rw [position?_empty] at h
  cases h

theorem covers_of (entries : List Entry) : (Index.of entries).Covers entries := by
  refine putAll_induction (P := Covers) (fun _ _ entry h => h.append entry) entries {} [] ?_
  intro entry h
  cases h

end Index

end MessageCatalog
