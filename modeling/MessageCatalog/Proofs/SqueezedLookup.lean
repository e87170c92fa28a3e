/-
# `MessageCatalog.Proofs.SqueezedLookup` — finding an entry by its own texts

Without ids, an entry is stored under its full key or under that key without
its comment (`IsKeyOf`).  Where the stored entries have different texts each
of them gets a record: a comment is only left out if no entry goes without
one, so a squeezed key is never the full key of another entry.

An entry is then looked up by its own texts.  With the comment in the key
the record is found at once.  Without it, the first try goes to a foreign
hash, and the record is found in the second one, unless

    the first try comes upon a record that answers

In a catalog that was compiled in full none does.  In a stripped one a record
answers every key with its hash that agrees with the parts it still tells,
which may be none at all; and the hash is that of the source text and the
comment in one.  In `concatenated` this happens: one entry has in two pieces
what another one has as its source text.
-/
import MessageCatalog.Proofs.Lookup

namespace MessageCatalog.Compiled

/-! ## Keys of entries -/

/-- A key that an entry without an id may be stored under. -/
def IsKeyOf (options : Options) (catalog : Catalog) (entry : Entry) (key : Key) : Prop :=
  key = fullKey entry ∨ key = squeezedKey entry ∧ keepsComment options catalog entry = false

section

variable {options : Options} {catalog : Catalog}

theorem isKeyOf_claimedKey (hid : options.idBased = false) (taken : Key → Bool) (entry : Entry) :
    IsKeyOf options catalog entry (claimedKey options catalog taken entry) := by
  unfold claimedKey
  rw [hid, if_neg Bool.false_ne_true]
  split
  · next hsqueezed =>
    rw [Bool.and_eq_true, Bool.not_eq_true'] at hsqueezed
    exact .inr ⟨rfl, hsqueezed.1⟩
  · exact .inl rfl

theorem comment_ne_empty {entry : Entry} (h : keepsComment options catalog entry = false) :
    entry.comment ≠ "" := by
  intro hempty
  simp [keepsComment, hempty] at h

theorem not_hasCommentless {entry : Entry} (h : keepsComment options catalog entry = false) :
    hasCommentless catalog entry = false := by
  simp only [keepsComment, Bool.or_eq_false_iff] at h
  exact h.2

/-- The full key of an entry of the catalog is no squeezed one. -/
theorem IsKeyOf.eq_fullKey {entry other : Entry}
    (h : IsKeyOf options catalog other (fullKey entry)) (hentry : entry ∈ catalog.entries) :
    fullKey other = fullKey entry := by
  rcases h with heq | ⟨heq, hsqueezed⟩
  · exact heq.symm
  · have hnone := List.any_eq_false.mp (not_hasCommentless hsqueezed) entry hentry
    simp only [fullKey, squeezedKey, Key.mk.injEq] at heq
    obtain ⟨hcontext, hsource, hcomment⟩ := heq
    simp [hcontext, hsource, hcomment] at hnone

theorem mem_entries_of_mem_storedEntries {entry : Entry} (h : entry ∈ storedEntries options catalog) :
    entry ∈ catalog.entries :=
  (List.mem_filter.mp h).1

/-! ## Entries with different texts -/

theorem isKeyOf_of_mem_origins (hid : options.idBased = false) {origin : Key × Entry}
    (h : origin ∈ origins options catalog) : IsKeyOf options catalog origin.2 origin.1 := by
  have hrun : ∀ (entries : List Entry) (origins : List (Key × Entry)),
      (∀ known ∈ origins, IsKeyOf options catalog known.2 known.1) →
        ∀ known ∈ entries.foldl (claim options catalog) origins,
          IsKeyOf options catalog known.2 known.1 := by
    intro entries
    induction entries with
    | nil => exact fun _ h => h
    | cons entry entries ih =>
        intro origins h
        refine ih _ ?_
        unfold claim
        split
        · exact h
        · exact List.forall_mem_cons.mpr ⟨isKeyOf_claimedKey hid _ entry, h⟩
  exact hrun _ [] (List.forall_mem_nil _) origin h

/-- An entry whose texts are new gets a key. -/
theorem claim_of_new (hid : options.idBased = false) {origins : List (Key × Entry)} {entry : Entry}
    (hentry : entry ∈ catalog.entries)
    (h : ∀ known ∈ origins, IsKeyOf options catalog known.2 known.1 ∧ fullKey known.2 ≠ fullKey entry) :
    claim options catalog origins entry
      = (claimedKey options catalog (isTaken origins) entry, entry) :: origins := by
  refine if_neg ?_
  intro htaken
  unfold claimedKey at htaken
  rw [hid, if_neg Bool.false_ne_true] at htaken
  split at htaken
  · next hsqueezed =>
    rw [htaken] at hsqueezed
    simp at hsqueezed
  · obtain ⟨known, hknown, hkey⟩ := List.any_eq_true.mp htaken
    obtain ⟨hof, hne⟩ := h known hknown
    rw [beq_iff_eq.mp hkey] at hof
    exact hne (hof.eq_fullKey hentry)

theorem mem_foldl_claim {origin : Key × Entry} (entries : List Entry) :
    ∀ origins : List (Key × Entry), origin ∈ origins →
      origin ∈ entries.foldl (claim options catalog) origins := by
  induction entries with
  | nil => exact fun _ h => h
  | cons entry entries ih =>
      intro origins h
      refine ih _ ?_
      unfold claim
      split
      · exact h
      · exact List.mem_cons_of_mem _ h

/-- Of entries with different texts each one gets a key. -/
theorem exists_mem_origins (hid : options.idBased = false)
    (hdistinct : ((storedEntries options catalog).map fullKey).Nodup) {entry : Entry}
    (hentry : entry ∈ storedEntries options catalog) :
    ∃ key, (key, entry) ∈ origins options catalog := by
  have hrun : ∀ (entries : List Entry) (origins : List (Key × Entry)),
      (entries.map fullKey).Nodup → (∀ e ∈ entries, e ∈ catalog.entries) →
        (∀ known ∈ origins, IsKeyOf options catalog known.2 known.1
          ∧ ∀ e ∈ entries, fullKey known.2 ≠ fullKey e) →
          ∀ e ∈ entries, ∃ key, (key, e) ∈ entries.foldl (claim options catalog) origins := by
    intro entries
    induction entries with
    | nil => exact fun _ _ _ _ _ he => absurd he List.not_mem_nil
    | cons first entries ih =>
        intro origins hnodup hmem h e he
        rw [List.map_cons, List.nodup_cons] at hnodup
        have hclaim := claim_of_new hid (hmem first List.mem_cons_self) fun known hknown =>
          ⟨(h known hknown).1, (h known hknown).2 first List.mem_cons_self⟩
        rw [List.foldl_cons, hclaim]
        rcases List.mem_cons.mp he with rfl | he
        · exact ⟨_, mem_foldl_claim entries _ List.mem_cons_self⟩
        · refine ih _ hnodup.2 (fun e he => hmem e (List.mem_cons_of_mem _ he)) ?_ e he
          refine List.forall_mem_cons.mpr ⟨⟨isKeyOf_claimedKey hid _ first, ?_⟩, ?_⟩
          · intro other hother heq
            exact hnodup.1 (List.mem_map.mpr ⟨other, hother, heq.symm⟩)
          · intro known hknown
            obtain ⟨hof, hne⟩ := h known hknown
            exact ⟨hof, fun e he => hne e (List.mem_cons_of_mem _ he)⟩
  exact hrun _ [] hdistinct (fun _ => mem_entries_of_mem_storedEntries) (List.forall_mem_nil _)
    entry hentry

/-- The record under the full key of an entry is its own. -/
theorem lookup_fullKey (hid : options.idBased = false)
    (hdistinct : ((storedEntries options catalog).map fullKey).Nodup) {entry : Entry}
    (hentry : entry ∈ storedEntries options catalog)
    (hmem : fullKey entry ∈ (collect options catalog).map Prod.fst) :
    (collect options catalog).lookup (fullKey entry) = some (options.translationsOf entry) := by
  rw [collect_eq_map_origins, List.map_map] at hmem
  obtain ⟨origin, horigin, hkey⟩ := List.mem_map.mp hmem
  have hkey : origin.1 = fullKey entry := hkey
  have hof := isKeyOf_of_mem_origins hid horigin
  rw [hkey] at hof
  have hsame := List.inj_on_of_nodup_map hdistinct (mem_storedEntries_of_mem_origins horigin) hentry
    (hof.eq_fullKey (mem_entries_of_mem_storedEntries hentry))
  have hlookup := lookup_of_mem_origins horigin
  rw [hkey, hsame] at hlookup
  exact hlookup

/-- An entry without a record under its full key has one without its
comment. -/
theorem lookup_squeezedKey (hid : options.idBased = false)
    (hdistinct : ((storedEntries options catalog).map fullKey).Nodup) {entry : Entry}
    (hentry : entry ∈ storedEntries options catalog)
    (hmem : fullKey entry ∉ (collect options catalog).map Prod.fst) :
    entry.comment ≠ ""
      ∧ (collect options catalog).lookup (squeezedKey entry)
          = some (options.translationsOf entry) := by
  obtain ⟨key, horigin⟩ := exists_mem_origins hid hdistinct hentry
  have hlookup := lookup_of_mem_origins horigin
  rcases isKeyOf_of_mem_origins hid horigin with hfull | ⟨hsqueezed, hkeeps⟩
  · refine absurd ?_ hmem
    rw [← hfull]
    exact List.mem_map_of_mem ((Records.lookup_eq_some (nodup_collect options catalog)).mp hlookup)
  · exact ⟨comment_ne_empty hkeeps, hsqueezed ▸ hlookup⟩

end

/-! ## Looking up -/

/-- What the first try of a look-up comes upon. -/
def firstTry (options : Options) (catalog : Catalog) (key : Key) : Option String :=
  (levelled options.saveMode (sortedRecords options catalog)).findSome? (answer key 0)

section

variable {options : Options} {catalog : Catalog} {file : File}

theorem IsCompiled.lookupExactly_of_slot (h : IsCompiled options catalog file) {key : Key}
    (hkey : Unshadowed (collect options catalog) key) {form : Nat} {text : String}
    (hslot : (collect options catalog).slot key form = some text) :
    file.lookupExactly key form = some text := by
  cases hmode : options.saveMode with
  | everything => rw [h.lookupExactly_everything hmode hkey, hslot]
  | stripped =>
      obtain ⟨translations, hstored, htext⟩ := Option.bind_eq_some_iff.mp hslot
      have hmem := (Records.lookup_eq_some (nodup_collect options catalog)).mp hstored
      exact h.lookupExactly_stripped hmode hkey (mem_sortedRecords.mpr hmem) htext

theorem IsCompiled.lookupExactly_of_stored (h : IsCompiled options catalog file) {key : Key}
    (hkey : Unshadowed (collect options catalog) key) {translations : List String}
    (hstored : (collect options catalog).lookup key = some translations) {text : String}
    (htext : translations.head? = some text) : file.lookupExactly key 0 = some text := by
  refine h.lookupExactly_of_slot hkey ?_
  rw [Records.slot, hstored, ← htext, List.head?_eq_getElem?]
  rfl

/-- The context of a record is covered. -/
theorem IsCompiled.coversContext_of_stored (h : IsCompiled options catalog file) {key : Key}
    {translations : List String} (hstored : (collect options catalog).lookup key = some translations) :
    file.coversContext key.context = true :=
  h.coversContext
    (mem_sortedRecords.mpr ((Records.lookup_eq_some (nodup_collect options catalog)).mp hstored))

/-- An entry that lost its comment is found in the second try. -/
theorem IsCompiled.lookup_squeezed (h : IsCompiled options catalog file) {entry : Entry}
    (hcomment : entry.comment ≠ "") {translations : List String}
    (hstored : (collect options catalog).lookup (squeezedKey entry) = some translations)
    {first : String} (hfirst : translations.head? = some first) :
    file.lookup (fullKey entry) none
      = (firstTry options catalog (fullKey entry)).or (some first) := by
  have hcovers : file.coversContext (squeezedKey entry).context = true :=
    h.coversContext_of_stored hstored
  have hcovers : file.coversContext (fullKey entry).context = true := hcovers
  have hagain : file.lookupExactly (squeezedKey entry) 0 = some first :=
    h.lookupExactly_of_stored (.inl rfl) hstored hfirst
  rw [lookup_of_covers hcovers, h.lookupExactly]
  refine congrArg _ ?_
  rw [← hagain]
  exact if_neg hcomment

end

/-- Where the stored entries have different texts, an entry that has
a translation is found by its own texts, be its comment part of its key or
not, exactly if nothing else is found first: the catalog was compiled in
full, the comment was kept, or the first record that answers the full key
has the same translation. -/
theorem lookup_compile_fullKey_iff {options : Options} {catalog : Catalog}
    {compilation : Compilation} (hid : options.idBased = false)
    (hdistinct : ((storedEntries options catalog).map fullKey).Nodup)
    (h : (compile options catalog).2 = .ok compilation) :
    ∃ file, File.parse compilation.bytes = .ok file
      ∧ ∀ entry ∈ storedEntries options catalog, ∀ first,
          (options.translationsOf entry).head? = some first →
            entry.comment = "" ∨ (squeezedKey entry).hash ≠ (fullKey entry).hash →
              (file.lookup (fullKey entry) none = some first
                ↔ options.saveMode = .everything
                  ∨ fullKey entry ∈ (collect options catalog).map Prod.fst
                  ∨ ∀ text, firstTry options catalog (fullKey entry) = some text → text = first) := by
  obtain ⟨file, hparse, hfile⟩ := parse_compile h
  refine ⟨file, hparse, ?_⟩
  intro entry hentry first hfirst hhash
  have hunshadowed : Unshadowed (collect options catalog) (fullKey entry) := by
    rcases hhash with hempty | hdiffer
    · exact .inl hempty
    · exact .inr (.inr hdiffer)
  by_cases hmem : fullKey entry ∈ (collect options catalog).map Prod.fst
  · have hstored := lookup_fullKey hid hdistinct hentry hmem
    refine iff_of_true ?_ (.inr (.inl hmem))
    rw [lookup_of_covers (hfile.coversContext_of_stored hstored)]
    change (file.lookupExactly (fullKey entry) 0).or _ = _
    rw [hfile.lookupExactly_of_stored hunshadowed hstored hfirst]
    rfl
  · obtain ⟨hcomment, hstored⟩ := lookup_squeezedKey hid hdistinct hentry hmem
    rw [hfile.lookup_squeezed hcomment hstored hfirst]
    constructor
    · intro hfound
      refine .inr (.inr ?_)
      intro text htext
      rw [htext] at hfound
      exact Option.some.inj hfound
    · rintro (hmode | hstored | hsame)
      · have hmiss : firstTry options catalog (fullKey entry) = none := by
          rw [firstTry, ← hfile.lookupExactly, hfile.lookupExactly_everything hmode hunshadowed,
            Records.slot, Records.lookup_eq_none.mpr hmem]
          rfl
        rw [hmiss]
        rfl
      · exact absurd hstored hmem
      · cases htry : firstTry options catalog (fullKey entry) with
        | none => rfl
        | some text => rw [hsame text htry]; rfl

/-- An entry with a comment that goes on where its source text ends. -/
def divided : Entry where
  context := "C"
  source := "a"
  comment := "bc"
  translations := ["x"]
  state := .finished

/-- A catalog with the two texts of `divided` in one. -/
def concatenated : Catalog where
  entries := [
    divided,
    { context := "C", source := "abc", translations := ["y"], state := .finished },
    { context := "D", source := "Open", comment := "menu", translations := ["z"]
      state := .finished }]

/-- The options that strip keys and squeeze comments. -/
def smallest : Options := { saveMode := .stripped, squeezeComments := true }

theorem exists_compile_concatenated :
    ∃ compilation, (compile smallest concatenated).2 = .ok compilation :=
  exists_compile smallest concatenated (by decide) (by decide) (by decide)

theorem sortedRecords_concatenated : sortedRecords smallest concatenated
    = [(⟨"C", "a", ""⟩, ["x"]), (⟨"C", "abc", ""⟩, ["y"]), (⟨"D", "Open", ""⟩, ["z"])] := by
  refine sortedRecords_of_perm (by decide) ?_
  decide

theorem nodup_concatenated : ((storedEntries smallest concatenated).map fullKey).Nodup := by
  decide

/-- The record of the whole text tells no part of its key. -/
theorem firstTry_concatenated : firstTry smallest concatenated (fullKey divided) = some "y" := by
  rw [firstTry, sortedRecords_concatenated]
  decide

theorem lookup_compile_fullKey_iff_concatenated :
    ∃ compilation file, (compile smallest concatenated).2 = .ok compilation
      ∧ File.parse compilation.bytes = .ok file
      ∧ file.lookup ⟨"C", "abc", ""⟩ none = some "y"
      ∧ file.lookup ⟨"D", "Open", "menu"⟩ none = some "z"
      ∧ file.lookup (fullKey divided) none ≠ some "x" := by
  obtain ⟨compilation, h⟩ := exists_compile_concatenated
  obtain ⟨file, hparse, hfound⟩ := lookup_compile_fullKey_iff rfl nodup_concatenated h
  refine ⟨compilation, file, h, hparse, ?_, ?_, ?_⟩
  · refine (hfound
      { context := "C", source := "abc", translations := ["y"], state := .finished }
      (by decide) "y" rfl (.inl rfl)).mpr ?_
    exact .inr (.inl (by decide))
  · refine (hfound
      { context := "D", source := "Open", comment := "menu", translations := ["z"]
        state := .finished }
      (by decide) "z" rfl (.inr (by decide))).mpr ?_
    have hmiss : firstTry smallest concatenated ⟨"D", "Open", "menu"⟩ = none := by
      rw [firstTry, sortedRecords_concatenated]
      decide
    refine .inr (.inr ?_)
    intro text htext
    cases hmiss.symm.trans htext
  · intro hlookup
    have hcondition := (hfound divided (by decide) "x" rfl
      (.inr (by decide))).mp hlookup
    rcases hcondition with hmode | hmem | hsame
    · cases hmode
    · exact absurd hmem (by decide)
    · exact absurd (hsame "y" firstTry_concatenated) (by decide)

/-- The entry whose comment was left out is not found: its texts lead to the
translation of the whole text. -/
theorem lookup_fullKey_concatenated_ne :
    ∃ compilation file, (compile smallest concatenated).2 = .ok compilation
      ∧ File.parse compilation.bytes = .ok file
      ∧ ((storedEntries smallest concatenated).map fullKey).Nodup
      ∧ divided ∈ storedEntries smallest concatenated
      ∧ (squeezedKey divided).hash ≠ (fullKey divided).hash
      ∧ (smallest.translationsOf divided).head? = some "x"
      ∧ file.lookup (fullKey divided) none = some "y" := by
  obtain ⟨compilation, h⟩ := exists_compile_concatenated
  obtain ⟨file, hparse, hfile⟩ := parse_compile h
  have hstored : (collect smallest concatenated).lookup (squeezedKey divided) = some ["x"] := by
    decide
  have hcomment : divided.comment ≠ "" := by decide
  have hlookup := hfile.lookup_squeezed hcomment hstored rfl
  rw [firstTry_concatenated] at hlookup
  exact ⟨compilation, file, h, hparse, nodup_concatenated, by decide, by decide,
    rfl, hlookup⟩

end MessageCatalog.Compiled
