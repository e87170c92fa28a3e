/-
# `MessageCatalog.Proofs.Precedence` — a key with a comment beside the one without

Where a source text is stored with a comment and without one, the look-up of
the key with the comment has two records to choose from: an empty comment
fits any.  What decides is the hash,

    the hashes differ    →  the record with the comment is found
    the hashes are equal →  the record without it is found

for with equal hashes both records are tried, and without its comment a key
stands in front of the same key with one.  The hash has only 28 bits, so a
comment can leave it as it was; in `hashAlike` one does.
-/
import MessageCatalog.Proofs.SqueezedLookup

namespace MessageCatalog.Compiled

/-! ## The key in front -/

/-- With the hash of the key, the key without its comment stands in front of
it. -/
theorem Key.isLE_order_commentless {key : Key} (h : key.commentless.hash = key.hash) :
    (order key.commentless key).isLE := by
  have hempty : (compare (Utf8.encode "") (Utf8.encode key.comment)).isLE := by
    rw [encode_eq_nil.mpr rfl]
    cases Utf8.encode key.comment <;> rfl
  rw [order_eq_then, h]
  simp only [commentless, Std.ReflCmp.compare_self, Ordering.eq_then]
  exact hempty

theorem Key.answers_commentless {key : Key} (h : key.commentless.hash = key.hash) :
    Answers key.commentless .comment key :=
  answers_comment.mpr ⟨h, rfl, rfl, .inl rfl⟩

section

variable {options : Options} {catalog : Catalog} {file : File}

/-- The record without the comment is found in the first try, if it has the
hash of the key. -/
theorem IsCompiled.lookupExactly_of_hash_eq (h : IsCompiled options catalog file) {key : Key}
    (hhash : key.commentless.hash = key.hash) {form : Nat} {text : String}
    (hslot : (collect options catalog).slot key.commentless form = some text) :
    file.lookupExactly key form = some text := by
  obtain ⟨translations, hstored, htext⟩ := Option.bind_eq_some_iff.mp hslot
  have hmem := mem_sortedRecords.mpr
    ((Records.lookup_eq_some (nodup_collect options catalog)).mp hstored)
  have hle := Key.isLE_order_commentless hhash
  rw [h.lookupExactly]
  refine findSome?_levelled_of_first _ hmem (Key.answers_commentless hhash) hle ?_ htext
  intro other _ hanswers hlt
  obtain ⟨-, hcontext, hsource, hcomment⟩ := answers_comment.mp hanswers
  rcases Key.eq_or_eq_commentless hcontext hsource hcomment with heq | heq
  · -- the key itself is not in front of the one without its comment
    rw [heq] at hlt
    rw [Std.OrientedCmp.gt_of_lt hlt] at hle
    cases hle
  · rw [heq, Key.order_eq_eq.mpr rfl] at hlt
    cases hlt

/-- With both records stored, the first try finds the one that the hashes
decide on. -/
theorem IsCompiled.lookupExactly_of_both (h : IsCompiled options catalog file) {key : Key}
    {form : Nat} {own bare : String}
    (hown : (collect options catalog).slot key form = some own)
    (hbare : (collect options catalog).slot key.commentless form = some bare) :
    file.lookupExactly key form
      = some (if key.commentless.hash = key.hash then bare else own) := by
  split
  · next hhash => exact h.lookupExactly_of_hash_eq hhash hbare
  · next hhash => exact h.lookupExactly_of_slot (.inr (.inr hhash)) hown

end

/-- Where a source text is stored with a comment and without one, and both
records have the plural form of the count, which without a count is the first
one, the key with the comment finds its own translation if the hashes of the
two keys differ, and that of the key without the comment if they do not. -/
theorem lookup_compile_commented {options : Options} {catalog : Catalog}
    {compilation : Compilation} (h : (compile options catalog).2 = .ok compilation) :
    ∃ file, File.parse compilation.bytes = .ok file
      ∧ ∀ key count own bare,
          (collect options catalog).slot key (file.formOf count) = some own →
            (collect options catalog).slot key.commentless (file.formOf count) = some bare →
              file.lookup key count
                = some (if key.commentless.hash = key.hash then bare else own) := by
  obtain ⟨file, hparse, hfile⟩ := parse_compile h
  refine ⟨file, hparse, ?_⟩
  intro key count own bare hown hbare
  obtain ⟨translations, hstored, -⟩ := Option.bind_eq_some_iff.mp hown
  rw [lookup_of_covers (hfile.coversContext_of_stored hstored),
    hfile.lookupExactly_of_both hown hbare]
  rfl

/-- A source text with two comments, of which the first one leaves the hash of
the source text as it is. -/
def hashAlike : Catalog where
  entries := [
    { context := "C", source := "Open", translations := ["x"], state := .finished },
    { context := "C", source := "Open", comment := "hssmcmen", translations := ["y"]
      state := .finished },
    { context := "C", source := "Open", comment := "menu", translations := ["z"]
      state := .finished }]

theorem exists_compile_hashAlike (mode : SaveMode) :
    ∃ compilation, (compile { saveMode := mode } hashAlike).2 = .ok compilation := by
  cases mode
  · exact exists_compile _ hashAlike (by decide) (by decide) (by decide)
  · exact exists_compile _ hashAlike (by decide) (by decide) (by decide)

theorem lookup_compile_commented_hashAlike :
    ∃ compilation file, (compile { saveMode := .stripped } hashAlike).2 = .ok compilation
      ∧ File.parse compilation.bytes = .ok file
      ∧ file.lookup ⟨"C", "Open", "menu"⟩ none = some "z"
      ∧ file.lookup ⟨"C", "Open", "hssmcmen"⟩ none = some "x" := by
  obtain ⟨compilation, h⟩ := exists_compile_hashAlike .stripped
  obtain ⟨file, hparse, hlookup⟩ := lookup_compile_commented h
  refine ⟨compilation, file, h, hparse, ?_, ?_⟩
  · exact hlookup ⟨"C", "Open", "menu"⟩ none "z" "x" (show Records.slot _ _ 0 = _ by decide)
      (show Records.slot _ _ 0 = _ by decide)
  · exact hlookup ⟨"C", "Open", "hssmcmen"⟩ none "y" "x" (show Records.slot _ _ 0 = _ by decide)
      (show Records.slot _ _ 0 = _ by decide)

/-- The first translation under a key with a comment is passed over for that
of the key without, although both are stored. -/
theorem lookup_hashAlike_ne :
    ∃ compilation file, (compile {} hashAlike).2 = .ok compilation
      ∧ File.parse compilation.bytes = .ok file
      ∧ (collect {} hashAlike).lookup ⟨"C", "Open", "hssmcmen"⟩ = some ["y"]
      ∧ (collect {} hashAlike).lookup ⟨"C", "Open", ""⟩ = some ["x"]
      ∧ file.lookup ⟨"C", "Open", "hssmcmen"⟩ none = some "x" := by
  obtain ⟨compilation, h⟩ := exists_compile_hashAlike .everything
  obtain ⟨file, hparse, hfile⟩ := parse_compile h
  have hown : (collect {} hashAlike).lookup ⟨"C", "Open", "hssmcmen"⟩ = some ["y"] := by decide
  have hbare : (collect {} hashAlike).lookup ⟨"C", "Open", ""⟩ = some ["x"] := by decide
  have hslot : (collect {} hashAlike).slot ⟨"C", "Open", ""⟩ 0 = some "x" := by
    rw [Records.slot, hbare]
    rfl
  have hexactly : file.lookupExactly ⟨"C", "Open", "hssmcmen"⟩ 0 = some "x" :=
    hfile.lookupExactly_of_hash_eq (by decide) hslot
  refine ⟨compilation, file, h, hparse, hown, hbare, ?_⟩
  rw [lookup_of_covers (hfile.coversContext_of_stored hown)]
  exact congrArg (Option.or · _) hexactly

end MessageCatalog.Compiled
