/-
# `MessageCatalog.Proofs.Lookup` — what is found in a compiled catalog

A look-up takes the first record that answers its key.  In a catalog that
was compiled in full a record answers its own key, and beyond that only the
keys that add a comment to it, so first answers are exact as soon as no
such record is in the way (`Unshadowed`).

In a stripped catalog a record may answer many keys.  What keeps it from
answering a later one is the law of `strippedLevels`,

    a stands before b  →  a is written one level deeper than it agrees with b

for then the part in which the two differ first is written.  The only part
that a written record can still be silent about is an empty comment, and
that is the same condition again.
-/
import MessageCatalog.Proofs.LookupRun
import MessageCatalog.Proofs.Size

namespace MessageCatalog.Compiled

/-! ## Keys without their comment -/

/-- A key without its comment. -/
def Key.commentless (key : Key) : Key := { key with comment := "" }

/-- No record stands under the key without its comment and has its hash. -/
def Unshadowed (records : Records) (key : Key) : Prop :=
  key.comment = "" ∨ records.lookup key.commentless = none ∨ key.commentless.hash ≠ key.hash

/-- The translation in a plural form under a key. -/
def Records.slot (records : Records) (key : Key) (form : Nat) : Option String :=
  (records.lookup key).bind fun translations => translations[form]?

theorem Key.commentless_eq_self {key : Key} (h : key.comment = "") : key.commentless = key := by
  cases key
  cases h
  rfl

theorem Key.eq_or_eq_commentless {stored key : Key} (hcontext : stored.context = key.context)
    (hsource : stored.source = key.source)
    (hcomment : stored.comment = "" ∨ stored.comment = key.comment) :
    stored = key ∨ stored = key.commentless := by
  cases stored
  cases key
  rcases hcomment with h | h
  · exact .inr (by rw [commentless]; congr)
  · exact .inl (by congr)

/-- Of the keys that differ from an unshadowed one in nothing but their
comment, only the key itself is stored, as far as an empty comment fits. -/
theorem Unshadowed.eq_of_stored {records : Records} {key stored : Key} (h : Unshadowed records key)
    (hmem : stored ∈ records.map Prod.fst) (hhash : stored.hash = key.hash)
    (hcontext : stored.context = key.context) (hsource : stored.source = key.source)
    (hcomment : stored.comment = "" ∨ stored.comment = key.comment) : stored = key := by
  rcases Key.eq_or_eq_commentless hcontext hsource hcomment with heq | rfl
  · exact heq
  · rcases h with hempty | hnone | hdiffer
    · exact Key.commentless_eq_self hempty
    · exact absurd hmem (Records.lookup_eq_none.mp hnone)
    · exact absurd hhash hdiffer

/-- A look-up is a second one without the comment, where the first finds
nothing. -/
theorem lookup_of_covers {file : File} {key : Key} (h : file.coversContext key.context = true)
    (count : Option Nat) :
    file.lookup key count = (file.lookupExactly key (file.formOf count)).or
      (if key.comment = "" then none
        else file.lookupExactly key.commentless (file.formOf count)) := by
  simp only [File.lookup, if_pos h, String.isEmpty_iff]
  cases file.lookupExactly key (file.formOf count) with
  | none => rfl
  | some text => rfl

/-! ## First answers -/

theorem lookup_sortedRecords (options : Options) (catalog : Catalog) (key : Key) :
    (sortedRecords options catalog).lookup key = (collect options catalog).lookup key := by
  apply Option.ext
  intro translations
  rw [Records.lookup_eq_some (nodup_sortedRecords options catalog), mem_sortedRecords,
    Records.lookup_eq_some (nodup_collect options catalog)]

/-- The first answer is that of an item, if nothing that stands before it has
one. -/
theorem findSome?_eq_of_first {α β : Type} {R : α → α → Prop} {f : α → Option β} {items : List α}
    (h : items.Pairwise R) {item : α} (hitem : item ∈ items) {answer : β}
    (hanswer : f item = some answer)
    (hearlier : ∀ earlier ∈ items, R earlier item → f earlier = none) :
    items.findSome? f = some answer := by
  induction items with
  | nil => cases hitem
  | cons first rest ih =>
      obtain ⟨hfirst, hrest⟩ := List.pairwise_cons.mp h
      rw [List.findSome?_cons]
      rcases List.mem_cons.mp hitem with rfl | hitem
      · rw [hanswer]
      · rw [hearlier first List.mem_cons_self (hfirst item hitem)]
        exact ih hrest hitem fun e he => hearlier e (List.mem_cons_of_mem _ he)

/-- Where no other record has an answer, the first answer is that of the
record under the key. -/
theorem findSome?_eq_bind_lookup {records : Records} (h : (records.map Prod.fst).Nodup) {key : Key}
    {f : Key × List String → Option String}
    (hf : ∀ record ∈ records, record.1 ≠ key → f record = none) :
    records.findSome? f = (records.lookup key).bind fun translations => f (key, translations) := by
  cases hlookup : records.lookup key with
  | none =>
      rw [Option.bind_none, List.findSome?_eq_none_iff]
      intro record hrecord
      refine hf record hrecord fun heq => ?_
      exact Records.lookup_eq_none.mp hlookup (heq ▸ List.mem_map_of_mem hrecord)
  | some translations =>
      have hmem := (Records.lookup_eq_some h).mp hlookup
      rw [Option.bind_some]
      cases hanswer : f (key, translations) with
      | some answer =>
          exact findSome?_eq_of_first (List.pairwise_map.mp h) hmem hanswer hf
      | none =>
          rw [List.findSome?_eq_none_iff]
          intro record hrecord
          by_cases hkey : record.1 = key
          · have hsame : records.lookup record.1 = some record.2 :=
              (Records.lookup_eq_some h).mpr hrecord
            rw [hkey, hlookup] at hsame
            rw [← hanswer, Option.some.inj hsame, ← hkey]
          · exact hf record hrecord hkey

/-! ## Catalogs in full -/

theorem answers_comment {stored key : Key} :
    Answers stored .comment key ↔ stored.hash = key.hash ∧ stored.context = key.context
      ∧ stored.source = key.source ∧ (stored.comment = "" ∨ stored.comment = key.comment) := by
  simp [Answers, Level.rank]

section

variable {options : Options} {catalog : Catalog} {file : File}

/-- A look-up of an unshadowed key, without the second try. -/
theorem IsCompiled.lookupExactly_everything (h : IsCompiled options catalog file)
    (hmode : options.saveMode = .everything) {key : Key}
    (hkey : Unshadowed (collect options catalog) key) (form : Nat) :
    file.lookupExactly key form = (collect options catalog).slot key form := by
  have hother : ∀ record ∈ sortedRecords options catalog, record.1 ≠ key →
      answer key form (record, .comment) = none := by
    intro record hrecord hne
    refine if_neg fun hanswers => hne ?_
    obtain ⟨hhash, hcontext, hsource, hcomment⟩ := answers_comment.mp hanswers
    exact hkey.eq_of_stored (List.mem_map_of_mem (mem_sortedRecords.mp hrecord)) hhash hcontext
      hsource hcomment
  rw [h.lookupExactly, hmode, levelled_everything, List.findSome?_map]
  have hfirst := findSome?_eq_bind_lookup (nodup_sortedRecords options catalog) hother
  rw [lookup_sortedRecords] at hfirst
  refine hfirst.trans (congrArg _ (funext fun translations => ?_))
  exact if_pos (answers_self key _)

/-- Whatever is found is stored under the context and the source text. -/
theorem IsCompiled.exists_of_lookupExactly (h : IsCompiled options catalog file)
    (hmode : options.saveMode = .everything) {key : Key} {form : Nat} {text : String}
    (hfound : file.lookupExactly key form = some text) :
    ∃ stored translations, (collect options catalog).lookup stored = some translations
      ∧ stored.context = key.context ∧ stored.source = key.source
      ∧ translations[form]? = some text := by
  rw [h.lookupExactly, hmode, levelled_everything, List.findSome?_map] at hfound
  obtain ⟨record, hrecord, hanswer⟩ := List.exists_of_findSome?_eq_some hfound
  change answer key form (record, .comment) = some text at hanswer
  unfold answer at hanswer
  split at hanswer
  · next hanswers =>
    obtain ⟨-, hcontext, hsource, -⟩ := answers_comment.mp hanswers
    exact ⟨record.1, record.2, (Records.lookup_eq_some (nodup_collect options catalog)).mpr
      (mem_sortedRecords.mp hrecord), hcontext, hsource, hanswer⟩
  · cases hanswer

theorem IsCompiled.coversContext_everything (h : IsCompiled options catalog file)
    (hmode : options.saveMode = .everything) (context : String) :
    file.coversContext context = true := by
  rw [File.coversContext, h.contexts, hmode]
  rfl

end

/-- Looking up an unshadowed key in a catalog that was compiled in full finds
what is stored under it or, failing that, under the key without its comment.
Whatever is found under any key is stored under its context and source
text. -/
theorem lookup_compile_everything {options : Options} {catalog : Catalog}
    {compilation : Compilation} (hmode : options.saveMode = .everything)
    (h : (compile options catalog).2 = .ok compilation) :
    ∃ file, File.parse compilation.bytes = .ok file
      ∧ file.rules = ruleBlock catalog.language
      ∧ (∀ key count, Unshadowed (collect options catalog) key →
          file.lookup key count
            = ((collect options catalog).slot key (file.formOf count)).or
                ((collect options catalog).slot key.commentless (file.formOf count)))
      ∧ ∀ key count text, file.lookup key count = some text →
          ∃ stored translations, (collect options catalog).lookup stored = some translations
            ∧ stored.context = key.context ∧ stored.source = key.source
            ∧ translations[file.formOf count]? = some text := by
  obtain ⟨file, hparse, hfile⟩ := parse_compile h
  have hagain (key : Key) (form : Nat) : file.lookupExactly key.commentless form
      = (collect options catalog).slot key.commentless form :=
    hfile.lookupExactly_everything hmode (.inl rfl) form
  refine ⟨file, hparse, hfile.rules, ?_, ?_⟩
  · intro key count hkey
    rw [lookup_of_covers (hfile.coversContext_everything hmode _),
      hfile.lookupExactly_everything hmode hkey]
    split
    · next hempty =>
      rw [Key.commentless_eq_self hempty, Option.or_none, Option.or_self]
    · rw [hagain]
  · intro key count text hfound
    rw [lookup_of_covers (hfile.coversContext_everything hmode _), Option.or_eq_some_iff] at hfound
    rcases hfound with hexactly | ⟨-, hagain⟩
    · exact hfile.exists_of_lookupExactly hmode hexactly
    · split at hagain
      · cases hagain
      · obtain ⟨stored, translations, hstored⟩ := hfile.exists_of_lookupExactly hmode hagain
        exact ⟨stored, translations, hstored⟩

theorem lookup_compile_everything_colliding :
    ∃ compilation file, (compile { saveMode := .everything } colliding).2 = .ok compilation
      ∧ File.parse compilation.bytes = .ok file
      ∧ file.lookup ⟨"C", "ab", "c"⟩ none = some "x"
      ∧ file.lookup ⟨"C", "a", "bc"⟩ none = none
      ∧ file.lookup ⟨"D", "%n", "d"⟩ none = some "z" := by
  obtain ⟨compilation, h⟩ := exists_compile_colliding .everything
  obtain ⟨file, hparse, -, hlookup, -⟩ := lookup_compile_everything rfl h
  refine ⟨compilation, file, h, hparse, ?_, ?_, ?_⟩
  · rw [hlookup _ _ (.inr (.inl (by decide +kernel)))]
    show Option.or (Records.slot _ _ 0) (Records.slot _ _ 0) = _
    decide +kernel
  · rw [hlookup _ _ (.inr (.inl (by decide +kernel)))]
    show Option.or (Records.slot _ _ 0) (Records.slot _ _ 0) = _
    decide +kernel
  · rw [hlookup _ _ (.inr (.inr (by decide +kernel)))]
    show Option.or (Records.slot _ _ 0) (Records.slot _ _ 0) = _
    decide +kernel

/-! ## Stripped catalogs -/

theorem Level.rank_deeper (a b : Level) : (a.deeper b).rank = max a.rank b.rank := by
  unfold deeper
  split <;> omega

theorem Level.rank_le_next (level : Level) : level.rank ≤ level.next.rank := by
  cases level <;> decide

theorem Level.rank_le_comment (level : Level) : level.rank ≤ Level.comment.rank := by
  cases level <;> decide

theorem Level.rank_next_mono {a b : Level} (h : a.rank ≤ b.rank) : a.next.rank ≤ b.next.rank := by
  cases a <;> cases b <;> first | decide | (exact absurd h (by decide))

/-- A key is written one level deeper than it agrees with any later one. -/
theorem pairwise_strippedLevels {records : Records}
    (h : records.Pairwise fun a b => Key.order a.1 b.1 = .lt) :
    ∀ previous, (records.zip (strippedLevels previous (records.map Prod.fst))).Pairwise fun a b =>
      (a.1.1.shared b.1.1).next.rank ≤ a.2.rank := by
  induction records with
  | nil => exact fun _ => .nil
  | cons record rest ih =>
      intro previous
      obtain ⟨hrecord, hrest⟩ := List.pairwise_cons.mp h
      cases rest with
      | nil => exact List.pairwise_singleton _ _
      | cons following rest =>
          refine List.pairwise_cons.mpr ⟨?_, ih hrest _⟩
          intro later hlater
          -- the level looks only at the key right behind, which shares the most
          have hle : (Key.order following.1 later.1.1).isLE := by
            rcases List.mem_cons.mp (List.of_mem_zip hlater).1 with heq | hrest'
            · rw [heq, Key.order_eq_eq.mpr rfl]
              rfl
            · rw [(List.pairwise_cons.mp hrest).1 _ hrest']
              rfl
          have hfollowing : (Key.order record.1 following.1).isLE := by
            rw [hrecord following List.mem_cons_self]
            rfl
          have hshared := Level.rank_next_mono (Key.shared_le_of_between hfollowing hle)
          show _ ≤ (previous.deeper (record.1.shared following.1).next).rank
          rw [Level.rank_deeper]
          exact Nat.le_trans hshared (Nat.le_max_right _ _)

/-- What answers a key in full answers it at every level. -/
theorem Answers.mono {stored key : Key} (h : Answers stored .comment key) (level : Level) :
    Answers stored level key := by
  obtain ⟨hhash, hcontext, hsource, hcomment⟩ := answers_comment.mp h
  exact ⟨hhash, fun _ => hcontext, fun _ => hsource, fun _ => hcomment⟩

/-- Two different keys do not agree one level deeper than they share, unless
the first one has no comment where the second one does. -/
theorem Answers.parts_eq {stored key : Key} {level : Level}
    (h : Answers stored level key) (hlevel : (stored.shared key).next.rank ≤ level.rank) :
    stored.context = key.context ∧ stored.source = key.source
      ∧ (stored.comment = "" ∨ stored.comment = key.comment) := by
  obtain ⟨hhash, hcontext, hsource, hcomment⟩ := h
  -- the first part to differ would be one that the level reaches, so none does
  unfold Key.shared at hlevel
  rw [if_neg (not_not.mpr hhash)] at hlevel
  have hcontext : stored.context = key.context := by
    by_contra hne
    rw [if_pos hne] at hlevel
    exact hne (hcontext hlevel)
  rw [if_neg (not_not.mpr hcontext)] at hlevel
  have hsource : stored.source = key.source := by
    by_contra hne
    rw [if_pos hne] at hlevel
    exact hne (hsource hlevel)
  rw [if_neg (not_not.mpr hsource)] at hlevel
  refine ⟨hcontext, hsource, hcomment ?_⟩
  split at hlevel <;> exact hlevel

/-- A key is written one level deeper than it agrees with any later one, in
full as well as stripped. -/
theorem pairwise_levelled (mode : SaveMode) (options : Options) (catalog : Catalog) :
    (levelled mode (sortedRecords options catalog)).Pairwise fun a b =>
      (a.1.1.shared b.1.1).next.rank ≤ a.2.rank ∧ Key.order a.1.1 b.1.1 = .lt := by
  have hsorted := pairwise_sortedRecords options catalog
  refine List.Pairwise.and ?_ ?_
  · cases mode with
    | everything =>
        rw [levelled_everything, List.pairwise_map]
        exact hsorted.imp fun _ => Level.rank_le_comment _
    | stripped => exact pairwise_strippedLevels hsorted _
  · rw [← map_fst_levelled mode (sortedRecords options catalog)] at hsorted
    exact List.pairwise_map.mp hsorted

/-- The first record that answers a key in full is the first one to answer it
at all, unless it stands behind the key. -/
theorem findSome?_levelled_of_first (mode : SaveMode) {options : Options} {catalog : Catalog}
    {record : Key × List String} (hrecord : record ∈ sortedRecords options catalog) {key : Key}
    (hanswers : Answers record.1 .comment key) (hle : (Key.order record.1 key).isLE)
    (hfirst : ∀ other ∈ sortedRecords options catalog, Answers other.1 .comment key →
      Key.order other.1 record.1 ≠ .lt)
    {form : Nat} {text : String} (htext : record.2[form]? = some text) :
    (levelled mode (sortedRecords options catalog)).findSome? (answer key form) = some text := by
  obtain ⟨level, hitem⟩ := exists_mem_levelled mode hrecord
  refine findSome?_eq_of_first (pairwise_levelled mode options catalog) hitem ?_ ?_
  · rw [answer, if_pos (hanswers.mono level)]
    exact htext
  · rintro earlier hearlier ⟨hlevel, hlt⟩
    refine if_neg fun hearlierAnswers => ?_
    -- the record stands between the earlier one and the key, so it shares more
    have hshared := Key.shared_le_of_between (by rw [hlt]; rfl) hle
    have hparts := hearlierAnswers.parts_eq (Nat.le_trans (Level.rank_next_mono hshared) hlevel)
    exact hfirst earlier.1 (mem_of_mem_levelled hearlier)
      (answers_comment.mpr ⟨hearlierAnswers.1, hparts⟩) hlt

section

variable {options : Options} {catalog : Catalog} {file : File}

/-- The first record that answers an unshadowed key is its own. -/
theorem IsCompiled.lookupExactly_stripped (h : IsCompiled options catalog file)
    (hmode : options.saveMode = .stripped) {key : Key}
    (hkey : Unshadowed (collect options catalog) key) {translations : List String}
    (hstored : (key, translations) ∈ sortedRecords options catalog) {form : Nat} {text : String}
    (htext : translations[form]? = some text) : file.lookupExactly key form = some text := by
  have hself := Key.order_eq_eq.mpr (rfl : key = key)
  rw [h.lookupExactly, hmode]
  refine findSome?_levelled_of_first .stripped hstored (answers_self key _) ?_ ?_ htext
  · rw [hself]
    rfl
  · intro other hother hanswers
    obtain ⟨hhash, hcontext, hsource, hcomment⟩ := answers_comment.mp hanswers
    have hmem : other.1 ∈ (collect options catalog).map Prod.fst :=
      List.mem_map_of_mem (mem_sortedRecords.mp hother)
    rw [hkey.eq_of_stored hmem hhash hcontext hsource hcomment, hself]
    exact Ordering.noConfusion

end

/-- Looking up an unshadowed key in a stripped catalog finds what is stored
under it. -/
theorem lookup_compile_stripped {options : Options} {catalog : Catalog}
    {compilation : Compilation} (hmode : options.saveMode = .stripped)
    (h : (compile options catalog).2 = .ok compilation) :
    ∃ file, File.parse compilation.bytes = .ok file
      ∧ file.rules = ruleBlock catalog.language
      ∧ ∀ key translations count text,
          (collect options catalog).lookup key = some translations →
            translations[file.formOf count]? = some text →
              Unshadowed (collect options catalog) key →
                file.lookup key count = some text := by
  obtain ⟨file, hparse, hfile⟩ := parse_compile h
  refine ⟨file, hparse, hfile.rules, ?_⟩
  intro key translations count text hstored htext hkey
  have hmem := mem_sortedRecords.mpr
    ((Records.lookup_eq_some (nodup_collect options catalog)).mp hstored)
  rw [lookup_of_covers (hfile.coversContext hmem),
    hfile.lookupExactly_stripped hmode hkey hmem htext]
  rfl

theorem lookup_compile_stripped_colliding :
    ∃ compilation file, (compile { saveMode := .stripped } colliding).2 = .ok compilation
      ∧ File.parse compilation.bytes = .ok file
      ∧ file.lookup ⟨"C", "ab", "c"⟩ none = some "x"
      ∧ file.lookup ⟨"D", "%n", ""⟩ none = some "z" := by
  obtain ⟨compilation, h⟩ := exists_compile_colliding .stripped
  obtain ⟨file, hparse, -, hlookup⟩ := lookup_compile_stripped rfl h
  refine ⟨compilation, file, h, hparse, ?_, ?_⟩
  · exact hlookup _ ["x", "y"] none "x" (by decide +kernel) rfl (.inr (.inl (by decide +kernel)))
  · exact hlookup _ ["z"] none "z" (by decide +kernel) rfl (.inl rfl)

end MessageCatalog.Compiled
