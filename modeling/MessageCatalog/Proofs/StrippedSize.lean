/-
# `MessageCatalog.Proofs.StrippedSize` — stripping makes records smaller

A record is as long as its fields and its end,

    5 + the length of the payload, for every field, and one byte

so less of the key means fewer bytes, and no record is longer than in full.  One
of them is shorter for certain: the last one has nothing behind it to be told
from, so it is written down to what it shares with the one in front of it, and
two different keys never share everything.
-/
import MessageCatalog.Proofs.Restoring
import MessageCatalog.Proofs.Size

namespace MessageCatalog.Compiled

/-! ## Sizes -/

/-- What is written one after the other is as long as its parts together. -/
theorem length_flatten_of_forall₂ {α : Type} {R : α → Bytes → Prop} {size : α → Nat}
    {items : List α} {written : List Bytes} (h : List.Forall₂ R items written)
    (hsize : ∀ item bytes, R item bytes → bytes.length = size item) :
    written.flatten.length = (items.map size).sum := by
  induction h with
  | nil => rfl
  | cons hitem _ ih =>
      rw [List.flatten_cons, List.length_append, hsize _ _ hitem, ih, List.map_cons, List.sum_cons]

/-- The size of a record that is written at a level. -/
def sizeAt (item : (Key × List String) × Level) : Nat :=
  fieldSizes (writtenFields item.1.1 item.1.2 item.2) + 1

theorem length_of_writeRecord {item : (Key × List String) × Level} {bytes : Bytes}
    (h : writeRecord item.1.1 item.1.2 item.2 = .ok bytes) : bytes.length = sizeAt item := by
  obtain ⟨written, hwritten, rfl⟩ := writeRecord_eq_ok.mp h
  rw [List.length_append, List.length_singleton,
    length_flatten_of_forall₂ hwritten fun _ _ => length_of_tagged]
  rfl

theorem length_of_writeRecords {mode : SaveMode} {records : Records} {written : List Bytes}
    (h : writeRecords mode records = .ok written) :
    written.flatten.length = ((levelled mode records).map sizeAt).sum :=
  length_flatten_of_forall₂ (writeRecords_eq_ok.mp h) fun _ _ => length_of_writeRecord

theorem sizeAt_le (item : (Key × List String) × Level) : sizeAt item ≤ recordSize item.1 :=
  fieldSizes_le _ _ _

theorem sizeAt_lt {item : (Key × List String) × Level} (h : item.2 ≠ .comment) :
    sizeAt item < recordSize item.1 :=
  fieldSizes_lt _ _ h

/-! ## Levels -/

theorem Level.deeper_ne_comment {a b : Level} (ha : a ≠ .comment) (hb : b ≠ .comment) :
    a.deeper b ≠ .comment := by
  unfold deeper
  split
  · exact hb
  · exact ha

/-- Different keys do not share everything. -/
theorem Key.shared_ne_comment {a b : Key} (h : a ≠ b) : a.shared b ≠ .comment := by
  intro hshared
  obtain ⟨-, hcontext, hsource, hcomment⟩ : a.Agree b .comment :=
    Key.agree_iff.mpr (by rw [hshared])
  cases a
  cases b
  cases hcontext
  cases hsource
  cases hcomment
  exact h rfl

/-- Some record in a stripped catalog is not written in full: the last one, if
no other one is. -/
theorem exists_level_ne_comment {records : Records} (hne : records ≠ [])
    (hnodup : (records.map Prod.fst).Nodup) :
    ∀ previous, previous ≠ .comment →
      ∃ item ∈ records.zip (strippedLevels previous (records.map Prod.fst)),
        item.2 ≠ .comment := by
  induction records with
  | nil => exact absurd rfl hne
  | cons record rest ih =>
      intro previous hprevious
      cases rest with
      | nil =>
          refine ⟨_, List.mem_singleton_self _, ?_⟩
          exact Level.deeper_ne_comment hprevious Level.noConfusion
      | cons following rest =>
          rw [List.map_cons, List.nodup_cons] at hnodup
          have hdiffer : record.1 ≠ following.1 := by
            intro heq
            exact hnodup.1 (heq ▸ List.mem_cons_self)
          obtain ⟨item, hitem, hlevel⟩ := ih (List.cons_ne_nil _ _) hnodup.2 _
            (Key.shared_ne_comment hdiffer)
          exact ⟨item, List.mem_cons_of_mem _ hitem, hlevel⟩

/-! ## Catalogs -/

theorem sum_sizeAt_lt {records : Records} (hne : records ≠ [])
    (hnodup : (records.map Prod.fst).Nodup) :
    ((levelled .stripped records).map sizeAt).sum
      < ((levelled .everything records).map sizeAt).sum := by
  obtain ⟨item, hitem, hlevel⟩ := exists_level_ne_comment hne hnodup .nothing Level.noConfusion
  calc ((levelled .stripped records).map sizeAt).sum
      < ((levelled .stripped records).map fun item => recordSize item.1).sum :=
        List.sum_lt_sum _ _ (fun item _ => sizeAt_le item) ⟨item, hitem, sizeAt_lt hlevel⟩
    _ = (records.map recordSize).sum := by rw [map_levelled]
    _ = ((levelled .everything records).map sizeAt).sum := by
        rw [levelled_everything, List.map_map]
        rfl

/-- A catalog with records that compiles in both modes has fewer bytes of
records in the stripped file. -/
theorem length_records_stripped_lt {options : Options} {catalog : Catalog}
    {full stripped : Compilation}
    (hfull : (compile { options with saveMode := .everything } catalog).2 = .ok full)
    (hstripped : (compile { options with saveMode := .stripped } catalog).2 = .ok stripped)
    (hstored : collect options catalog ≠ []) :
    ∃ whole bare, File.parse full.bytes = .ok whole ∧ File.parse stripped.bytes = .ok bare
      ∧ bare.records.length < whole.records.length := by
  obtain ⟨whole, wholeWritten, hwhole, -, hwriteWhole, hwholeRecords⟩ :=
    parse_compile_written hfull
  obtain ⟨bare, bareWritten, hbare, -, hwriteBare, hbareRecords⟩ := parse_compile_written hstripped
  refine ⟨whole, bare, hwhole, hbare, ?_⟩
  rw [hwholeRecords, hbareRecords, length_of_writeRecords hwriteWhole,
    length_of_writeRecords hwriteBare, sortedRecords_saveMode, sortedRecords_saveMode]
  exact sum_sizeAt_lt (sortedRecords_ne_nil hstored) (nodup_sortedRecords options catalog)

theorem length_records_stripped_lt_anagrams :
    ∃ full stripped whole bare, (compile { saveMode := .everything } anagrams).2 = .ok full
      ∧ (compile { saveMode := .stripped } anagrams).2 = .ok stripped
      ∧ collect {} anagrams ≠ []
      ∧ File.parse full.bytes = .ok whole ∧ File.parse stripped.bytes = .ok bare
      ∧ bare.records.length < whole.records.length := by
  obtain ⟨full, hfull⟩ := exists_compile_anagrams .everything
  obtain ⟨stripped, hstripped⟩ := exists_compile_anagrams .stripped
  have hstored : collect {} anagrams ≠ [] := by decide
  obtain ⟨whole, bare, hwhole, hbare, hlt⟩ :=
    @length_records_stripped_lt {} anagrams full stripped hfull hstripped hstored
  exact ⟨full, stripped, whole, bare, hfull, hstripped, hstored, hwhole, hbare, hlt⟩

end MessageCatalog.Compiled
