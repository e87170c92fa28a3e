/-
# `MessageCatalog.Proofs.StrippedRemark` — what is remarked on stripped catalogs

A file does not say in which mode it was compiled.  Decoding takes the table
of contexts as the sign of a stripped one, but the table is left out when it
does not fit:

    the table fits      compiling says nothing, decoding remarks on the keys
    it does not fit     compiling remarks on the table, decoding says nothing

So exactly one of the two runs has something to say about a stripped catalog
with records.  Who only decodes a file whose table was left out is not told
that the keys are incomplete; `longCatalog` has such files.
-/
import MessageCatalog.Proofs.Recompiling
import MessageCatalog.Proofs.Restoring
import MessageCatalog.Release.Basic

namespace MessageCatalog

/-- The remark tells that a table of contexts was left out. -/
def Remark.dropsContexts : Remark → Bool
  | tooManyContexts _ | contextPoolTooLarge _ _ => true
  | _ => false

namespace Compiled

/-! ## Tables of contexts -/

theorem ContextTable.dropsContexts_of_build {contexts : List Bytes} {remark : Remark}
    (h : build contexts = .error remark) : remark.dropsContexts = true := by
  simp only [build] at h
  split at h
  · cases h
    rfl
  · split at h
    · cases h
      rfl
    · cases h

/-- The different contexts of some records. -/
def contextsOf (records : Records) : List Bytes :=
  distinct (records.map fun record => Utf8.encode record.1.context)

/-- A stripped catalog with records asks for a table. -/
theorem wants_contexts {records : Records} (h : records ≠ []) :
    ¬ (decide (SaveMode.stripped = .everything) || records.isEmpty) = true := by
  rw [List.isEmpty_eq_false_iff.mpr h]
  exact Bool.false_ne_true

theorem isSome_keptContexts {records : Records} (h : records ≠ []) :
    (keptContexts .stripped records).isSome ↔ ContextTable.Fits (contextsOf records) := by
  rw [← ContextTable.exists_build_iff, keptContexts, if_neg (wants_contexts h), contextsOf]
  cases hbuild : ContextTable.build (distinct (records.map fun r => Utf8.encode r.1.context)) with
  | ok block =>
      simp only [hbuild]
      exact iff_of_true rfl ⟨block, rfl⟩
  | error remark =>
      simp only [hbuild]
      refine iff_of_false Bool.false_ne_true ?_
      rintro ⟨block, hblock⟩
      cases hblock

/-- A table that does not fit is remarked on, and one that does is not. -/
theorem exists_dropsContexts_contextBlock {records : Records} (h : records ≠ []) :
    (∃ remark ∈ (contextBlock .stripped records).2, remark.dropsContexts)
      ↔ ¬ ContextTable.Fits (contextsOf records) := by
  rw [← ContextTable.exists_build_iff, contextBlock, if_neg (wants_contexts h), contextsOf]
  cases hbuild : ContextTable.build (distinct (records.map fun r => Utf8.encode r.1.context)) with
  | ok block =>
      refine iff_of_false ?_ (not_not.mpr ⟨block, rfl⟩)
      rintro ⟨remark, hremark, -⟩
      cases hremark
  | error remark =>
      refine iff_of_true ⟨remark, List.mem_singleton_self _, ?_⟩ ?_
      · exact ContextTable.dropsContexts_of_build hbuild
      · rintro ⟨block, hblock⟩
        cases hblock

/-! ## Compiling -/

theorem remarks_compile {options : Options} {catalog : Catalog} {compilation : Compilation}
    (h : (compile options catalog).2 = .ok compilation) :
    (compile options catalog).1 = keyRemarks (statistics options catalog)
      ++ (contextBlock options.saveMode (sortedRecords options catalog)).2
      ++ closingRemarks (statistics options catalog) := by
  simp only [compile] at h ⊢
  split at h
  · cases h
  · rfl

theorem not_dropsContexts_keyRemarks (statistics : Statistics) :
    ∀ remark ∈ keyRemarks statistics, remark.dropsContexts = false := by
  intro remark hremark
  rcases List.mem_append.mp hremark with hmissing | hdropped
  · split at hmissing
    · cases hmissing
    · rw [List.mem_singleton.mp hmissing]
      rfl
  · split at hdropped
    · cases hdropped
    · rw [List.mem_singleton.mp hdropped]
      rfl

theorem not_dropsContexts_closingRemarks (statistics : Statistics) :
    ∀ remark ∈ closingRemarks statistics, remark.dropsContexts = false := by
  intro remark hremark
  rcases List.mem_cons.mp hremark with rfl | hignored
  · rfl
  · split at hignored
    · cases hignored
    · rw [List.mem_singleton.mp hignored]
      rfl

/-- Compiling a stripped catalog remarks on its table exactly if that does not
fit. -/
theorem exists_dropsContexts_compile {options : Options} {catalog : Catalog}
    {compilation : Compilation} (hmode : options.saveMode = .stripped)
    (hstored : collect options catalog ≠ [])
    (h : (compile options catalog).2 = .ok compilation) :
    (∃ remark ∈ (compile options catalog).1, remark.dropsContexts)
      ↔ ¬ ContextTable.Fits (contextsOf (sortedRecords options catalog)) := by
  rw [← exists_dropsContexts_contextBlock (sortedRecords_ne_nil hstored), remarks_compile h, hmode]
  constructor
  · rintro ⟨remark, hremark, hdrops⟩
    rcases List.mem_append.mp hremark with hfirst | hclosing
    · rcases List.mem_append.mp hfirst with hkey | hcontext
      · rw [not_dropsContexts_keyRemarks _ remark hkey] at hdrops
        cases hdrops
      · exact ⟨remark, hcontext, hdrops⟩
    · rw [not_dropsContexts_closingRemarks _ remark hclosing] at hdrops
      cases hdrops
  · rintro ⟨remark, hremark, hdrops⟩
    exact ⟨remark, List.mem_append_left _ (List.mem_append_right _ hremark), hdrops⟩

end Compiled

/-! ## Decoding -/

section

variable {options : Compiled.Options} {catalog : Catalog} {compilation : Compiled.Compilation}

/-- The remarks on a restored catalog. -/
def decodingRemarks (hasTable : Bool) (restored : Catalog) : List Remark :=
  (if hasTable then [.keysIncomplete] else [])
    ++ [.decoded restored.entries.length restored.language]

theorem keysIncomplete_mem (hasTable : Bool) (restored : Catalog) :
    .keysIncomplete ∈ decodingRemarks hasTable restored ↔ hasTable = true := by
  cases hasTable <;> simp [decodingRemarks]

/-- A compiled catalog is decoded with all records, and the keys are remarked
on if there is a table of contexts. -/
theorem exists_decompile (h : (Compiled.compile options catalog).2 = .ok compilation) :
    ∃ restored, decompile compilation.bytes = .ok (restored, decodingRemarks
        (Compiled.keptContexts options.saveMode (Compiled.sortedRecords options catalog)).isSome
        restored)
      ∧ restored.entries.length = (Compiled.collect options catalog).length := by
  obtain ⟨file, hparse, hfile⟩ := Compiled.parse_compile h
  obtain ⟨restored, hrestored, -, -, hkeeps⟩ := hfile.exists_toCatalog
  refine ⟨restored, Compiled.bind_eq_ok.mpr ⟨file, hparse,
    Compiled.bind_eq_ok.mpr ⟨restored, hrestored, ?_⟩⟩, ?_⟩
  · rw [hfile.contexts]
    rfl
  · have hlength := hkeeps.length_eq
    rw [← List.length_map Prod.fst, Compiled.map_fst_levelled] at hlength
    exact hlength.trans (List.mergeSort_perm _ _).length_eq

/-- A stripped catalog with records is decoded with all of them.  That keys are
incomplete is remarked on exactly if the table of contexts fits, which is to
say exactly if compiling did not remark on the table. -/
theorem decompile_stripped (hmode : options.saveMode = .stripped)
    (hstored : Compiled.collect options catalog ≠ [])
    (h : (Compiled.compile options catalog).2 = .ok compilation) :
    ∃ restored remarks, decompile compilation.bytes = .ok (restored, remarks)
      ∧ restored.entries.length = (Compiled.collect options catalog).length
      ∧ (.keysIncomplete ∈ remarks ↔ Compiled.ContextTable.Fits
          (Compiled.contextsOf (Compiled.sortedRecords options catalog)))
      ∧ (.keysIncomplete ∉ remarks ↔
          ∃ remark ∈ (Compiled.compile options catalog).1, remark.dropsContexts) := by
  obtain ⟨restored, hdecompile, hlength⟩ := exists_decompile h
  rw [hmode] at hdecompile
  have hfits := (keysIncomplete_mem _ restored).trans
    (Compiled.isSome_keptContexts (Compiled.sortedRecords_ne_nil hstored))
  refine ⟨restored, _, hdecompile, hlength, hfits, ?_⟩
  rw [hfits, Compiled.exists_dropsContexts_compile hmode hstored h]

end

theorem decompile_stripped_anagrams :
    ∃ compilation restored remarks,
      (Compiled.compile { saveMode := .stripped } Compiled.anagrams).2 = .ok compilation
        ∧ decompile compilation.bytes = .ok (restored, remarks)
        ∧ restored.entries.length = 3 ∧ .keysIncomplete ∈ remarks := by
  obtain ⟨compilation, h⟩ := Compiled.exists_compile_anagrams .stripped
  obtain ⟨restored, remarks, hdecompile, hlength, hfits, -⟩ :=
    decompile_stripped rfl (by decide) h
  refine ⟨compilation, restored, remarks, h, hdecompile, hlength.trans (by decide), hfits.mpr ?_⟩
  rw [Compiled.sortedRecords_saveMode {} _ .stripped, Compiled.sortedRecords_anagrams]
  exact Compiled.ContextTable.exists_build_iff.mp
    (Compiled.ContextTable.exists_build (by decide) (by decide))

/-! ## A table that does not fit -/

/-- A text that is at least as long as what counts of a context. -/
def longText (i : Nat) : String := String.ofList (List.replicate (255 + i) 'm')

/-- A catalog with some entries whose contexts are long. -/
def longCatalog (size : Nat) : Catalog where
  entries := (List.range size).map fun i =>
    { context := longText i, source := longText i, translations := ["x"], state := .finished }

/-- The records of such a catalog. -/
def longRecords (size : Nat) : Compiled.Records :=
  (List.range size).map fun i => (⟨longText i, longText i, ""⟩, ["x"])

theorem Utf8.encode_ofList (chars : List Char) :
    Utf8.encode (String.ofList chars) = chars.flatMap String.utf8EncodeChar := by
  rw [encode, String.toByteArray_ofList, List.utf8Encode, List.data_toByteArray]

theorem encode_longText (i : Nat) : Utf8.encode (longText i) = List.replicate (255 + i) 109 := by
  have hchar : String.utf8EncodeChar 'm' = [109] := by decide
  rw [longText, Utf8.encode_ofList, List.flatMap_replicate, hchar,
    List.flatten_replicate_singleton]

theorem length_encode_longText (i : Nat) : (Utf8.encode (longText i)).length = 255 + i := by
  rw [encode_longText, List.length_replicate]

theorem longText_injective {i j : Nat} (h : longText i = longText j) : i = j := by
  have hlength := congrArg (fun text => (Utf8.encode text).length) h
  simp only [length_encode_longText] at hlength
  omega

theorem perm_collect_long (size : Nat) :
    (Compiled.collect { saveMode := .stripped } (longCatalog size)).Perm (longRecords size) := by
  have hstored : Compiled.storedEntries { saveMode := .stripped } (longCatalog size)
      = (longCatalog size).entries := by
    refine Compiled.storedEntries_of_finished rfl ?_
    intro entry hentry
    obtain ⟨i, -, rfl⟩ := List.mem_map.mp hentry
    rfl
  have hnodup : ((Compiled.storedEntries { saveMode := .stripped } (longCatalog size)).map
      (Compiled.recordKey { saveMode := .stripped })).Nodup := by
    rw [hstored, longCatalog, List.map_map]
    refine List.nodup_range.map ?_
    intro i j hij
    exact longText_injective (congrArg Compiled.Key.context hij)
  rw [Compiled.collect_of_nodup rfl hnodup, hstored, longCatalog, List.map_map]
  exact List.reverse_perm _

/-- The contexts that the table of such a catalog would list. -/
def longContexts (size : Nat) : List Bytes :=
  Compiled.contextsOf (Compiled.sortedRecords { saveMode := .stripped } (longCatalog size))

/-- Every entry has a context of its own, and all are long. -/
theorem longContexts_spec (size : Nat) :
    (longContexts size).length = size ∧ ∀ context ∈ longContexts size, 255 ≤ context.length := by
  have hcontexts : ((Compiled.sortedRecords { saveMode := .stripped } (longCatalog size)).map
      fun record => Utf8.encode record.1.context).Perm
        ((List.range size).map fun i => Utf8.encode (longText i)) := by
    refine (((List.mergeSort_perm _ _).trans (perm_collect_long size)).map _).trans
      (List.Perm.of_eq ?_)
    rw [longRecords, List.map_map]
    rfl
  have hnodup : ((List.range size).map fun i => Utf8.encode (longText i)).Nodup := by
    refine List.nodup_range.map ?_
    intro i j hij
    exact longText_injective (Utf8.encode_injective hij)
  refine ⟨?_, ?_⟩
  · rw [longContexts, Compiled.contextsOf, Compiled.length_distinct,
      List.toFinset_eq_of_perm _ _ hcontexts, List.toFinset_card_of_nodup hnodup, List.length_map,
      List.length_range]
  · intro context hcontext
    obtain ⟨i, -, rfl⟩ := List.mem_map.mp (hcontexts.mem_iff.mp (Compiled.mem_distinct.mp hcontext))
    rw [length_encode_longText]
    omega

theorem recordSize_longText (i : Nat) :
    Compiled.recordSize (⟨longText i, longText i, ""⟩, ["x"]) = 533 + 2 * i := by
  have htranslation : (Utf16.encode "x").length = 2 := by decide
  have hcomment : (Utf8.encode "").length = 0 := by decide
  simp only [Compiled.recordSize, Compiled.fieldSizes, Compiled.writtenFields,
    Compiled.Key.writtenParts, List.map_cons, List.map_nil, List.cons_append, List.nil_append,
    List.sum_cons, List.sum_nil, length_encode_longText, htranslation, hcomment]
  omega

theorem exists_compile_long {size : Nat} (h : size ≤ 512) :
    ∃ compilation, (Compiled.compile { saveMode := .stripped } (longCatalog size)).2
      = .ok compilation := by
  refine Compiled.exists_compile _ _ ?_ (Nat.zero_lt_succ _) (Nat.zero_lt_succ _)
  have hsizes : ((Compiled.collect { saveMode := .stripped } (longCatalog size)).map
      Compiled.recordSize).sum = ((longRecords size).map Compiled.recordSize).sum :=
    ((perm_collect_long size).map _).sum_nat
  have hsum : ((longRecords size).map Compiled.recordSize).sum
      ≤ ((longRecords size).map Compiled.recordSize).length • 1557 := by
    refine List.sum_le_card_nsmul _ _ ?_
    intro bytes hbytes
    obtain ⟨record, hrecord, rfl⟩ := List.mem_map.mp hbytes
    obtain ⟨i, hi, rfl⟩ := List.mem_map.mp hrecord
    rw [recordSize_longText]
    have hi := List.mem_range.mp hi
    omega
  rw [List.length_map, longRecords, List.length_map, List.length_range, smul_eq_mul] at hsum
  rw [hsizes, longRecords]
  omega

/-- A stripped catalog is decoded without the remark that its keys are
incomplete. -/
theorem incomplete_without_remark :
    ∃ compilation restored remarks,
      (Compiled.compile { saveMode := .stripped } (longCatalog 512)).2 = .ok compilation
        ∧ Compiled.collect { saveMode := .stripped } (longCatalog 512) ≠ []
        ∧ decompile compilation.bytes = .ok (restored, remarks)
        ∧ .keysIncomplete ∉ remarks := by
  obtain ⟨compilation, h⟩ := exists_compile_long (Nat.le_refl 512)
  obtain ⟨restored, hdecompile, -⟩ := exists_decompile h
  obtain ⟨hlength, hlong⟩ := longContexts_spec 512
  have hstored : Compiled.collect { saveMode := .stripped } (longCatalog 512) ≠ [] := by
    intro hnil
    have hcount := (perm_collect_long 512).length_eq
    rw [hnil, longRecords, List.length_map, List.length_range] at hcount
    cases hcount
  refine ⟨compilation, restored, _, h, hstored, hdecompile, ?_⟩
  rw [keysIncomplete_mem, Compiled.isSome_keptContexts (Compiled.sortedRecords_ne_nil hstored)]
  exact Compiled.ContextTable.not_fits_of_long hlong (Nat.le_of_eq hlength.symm)

end MessageCatalog
