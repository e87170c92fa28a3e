/-
# `MessageCatalog.Proofs.LanguageGuess` — the language of a file name

A file name is tried from its beginning, and then from behind each of its
underscores and dots, until what is left is a language code.  The rests that are
tried get shorter and none is left out, so

    the first rest that parses  =  the longest rest that parses

and the answer is its canonical code, which can be used wherever a code is asked
for.  When no rest parses there is no answer.

A rest is cut at underscores and dots, and what parses is cut at underscores and
hyphens.  The two do not have to agree: a rest is tried whole, and only its
canonical code is handed out.
-/
import MessageCatalog.Locale.FileName
import MessageCatalog.Proofs.LocaleNames

namespace MessageCatalog.Locale

/-! ## The rests of a name -/

/-- A rest of a name: all of it, or what stands behind an underscore or a dot. -/
def IsRest (stem rest : List Char) : Prop :=
  rest = stem ∨ ∃ front c, (c = '_' ∨ c = '.') ∧ stem = front ++ c :: rest

theorem isNameSeparator_iff {c : Char} : isNameSeparator c = true ↔ c = '_' ∨ c = '.' := by
  simp [isNameSeparator]

theorem mem_restsBehind_iff {stem rest : List Char} :
    rest ∈ restsBehind stem ↔ ∃ front c, (c = '_' ∨ c = '.') ∧ stem = front ++ c :: rest := by
  induction stem with
  | nil => simp [restsBehind]
  | cons d tail ih =>
      have hbehind : (∃ front c, (c = '_' ∨ c = '.') ∧ d :: tail = front ++ c :: rest)
          ↔ isNameSeparator d = true ∧ rest = tail ∨ rest ∈ restsBehind tail := by
        rw [ih, isNameSeparator_iff]
        constructor
        · rintro ⟨front, c, hc, heq⟩
          cases front with
          | nil =>
              cases heq
              exact .inl ⟨hc, rfl⟩
          | cons _ front =>
              cases heq
              exact .inr ⟨front, c, hc, rfl⟩
        · rintro (⟨hd, rfl⟩ | ⟨front, c, hc, rfl⟩)
          · exact ⟨[], d, hd, rfl⟩
          · exact ⟨d :: front, c, hc, rfl⟩
      rw [hbehind, restsBehind]
      split
      · next hd => rw [List.mem_cons, hd, eq_self, true_and]
      · next hd => rw [or_iff_right fun h => hd h.1]

theorem mem_rests_iff {stem rest : List Char} :
    rest ∈ stem :: restsBehind stem ↔ IsRest stem rest := by
  rw [List.mem_cons, mem_restsBehind_iff, IsRest]

theorem length_lt_of_mem_restsBehind {stem rest : List Char} (h : rest ∈ restsBehind stem) :
    rest.length < stem.length := by
  obtain ⟨front, c, -, rfl⟩ := mem_restsBehind_iff.mp h
  rw [List.length_append, List.length_cons]
  omega

theorem pairwise_restsBehind (stem : List Char) :
    (restsBehind stem).Pairwise fun longer shorter => shorter.length < longer.length := by
  induction stem with
  | nil => exact .nil
  | cons c tail ih =>
      rw [restsBehind]
      split
      · exact .cons (fun _ => length_lt_of_mem_restsBehind) ih
      · exact ih

/-- The rests are tried from the longest to the shortest. -/
theorem pairwise_rests (stem : List Char) :
    (stem :: restsBehind stem).Pairwise fun longer shorter => shorter.length < longer.length :=
  .cons (fun _ => length_lt_of_mem_restsBehind) (pairwise_restsBehind stem)

/-! ## The guess -/

/-- The longest rest of a name that is a language code, and its locale. -/
structure IsLongestCode (stem rest : List Char) (locale : Locale) : Prop where
  isRest : IsRest stem rest
  parsed : parse? rest = some locale
  longest : ∀ other, IsRest stem other → (parse? other).isSome = true →
    other.length ≤ rest.length

/-- The first rest that parses is the longest. -/
theorem isLongestCode_of_findSome? {stem : List Char} {locale : Locale}
    (h : (stem :: restsBehind stem).findSome? parse? = some locale) :
    ∃ rest, IsLongestCode stem rest locale := by
  obtain ⟨longer, rest, shorter, hrests, hparsed, hlonger⟩ := List.findSome?_eq_some_iff.mp h
  refine ⟨rest, mem_rests_iff.mp ?_, hparsed, ?_⟩
  · rw [hrests]
    exact List.mem_append_right _ List.mem_cons_self
  · intro other hother hsome
    rw [← mem_rests_iff, hrests] at hother
    have hordered := pairwise_rests stem
    rw [hrests, List.pairwise_append] at hordered
    rcases List.mem_append.mp hother with hmem | hmem
    · rw [hlonger other hmem] at hsome
      cases hsome
    · rcases List.mem_cons.mp hmem with rfl | hmem
      · exact Nat.le_refl _
      · exact Nat.le_of_lt (List.rel_of_pairwise_cons hordered.2.1 hmem)

/-- A code that stands for a locale, wherever it is put to use. -/
structure Usable (code : String) (locale : Locale) : Prop where
  nonempty : code ≠ ""
  /-- Reading the code and writing it again changes nothing. -/
  stable : (parse? code.toList).map name = some code
  parts : Locale.parts code = (some locale.language, locale.territory)
  /-- Settings are not at fault for having the code as their target language. -/
  valid : ∀ settings : Settings, { settings with targetLanguage := some code }.faults
    = { settings with targetLanguage := none }.faults
  plural : (Plural.lookupCode code).isSome = true

theorem usable_name {locale : Locale} (h : locale.Canonical) : Usable locale.name locale := by
  have hread := parse?_name h
  have hparts := parts_of_parse? hread
  refine ⟨ne_empty_of_parse? hread, by rw [hread, Option.map_some], hparts, ?_, ?_⟩
  · intro settings
    rw [Settings.faults, Settings.faults, Settings.languageFaults_of_parse? hread]
    rfl
  · simp only [Plural.lookupCode, hparts]
    exact Plural.isSome_lookup (Language.mem_of_ofCode? h.language) locale.territory

/-- A file name tells the canonical code of its longest rest that is a language
code, which can be used as it is, or no language when no rest is one. -/
theorem guess_longest_usable (path : Path) :
    (guess path = "" ∧ ∀ stem, path.fileStem? = some stem →
      ∀ rest, IsRest stem rest → parse? rest = none)
    ∨ ∃ stem rest locale, path.fileStem? = some stem ∧ IsLongestCode stem rest locale
        ∧ guess path = locale.name ∧ Usable (guess path) locale := by
  unfold guess
  cases hstem : path.fileStem? with
  | none => exact .inl ⟨rfl, nofun⟩
  | some stem =>
      simp only
      cases hfound : (stem :: restsBehind stem).findSome? parse? with
      | none =>
          refine .inl ⟨rfl, ?_⟩
          rintro _ ⟨⟩ rest hrest
          exact List.findSome?_eq_none_iff.mp hfound rest (mem_rests_iff.mpr hrest)
      | some locale =>
          obtain ⟨rest, hlongest⟩ := isLongestCode_of_findSome? hfound
          exact .inr ⟨stem, rest, locale, rfl, hlongest, rfl,
            usable_name (canonical_of_parse? hlongest.parsed)⟩

theorem guess_longest_usable_hyphen :
    ∃ stem rest locale, Path.fileStem? ⟨"translations/app.pt-PT.json"⟩ = some stem
      ∧ IsLongestCode stem rest locale
      ∧ guess ⟨"translations/app.pt-PT.json"⟩ = "pt_PT" ∧ Usable "pt_PT" locale := by
  have hguess : guess ⟨"translations/app.pt-PT.json"⟩ = "pt_PT" := by decide
  rcases guess_longest_usable ⟨"translations/app.pt-PT.json"⟩ with
    ⟨hnone, -⟩ | ⟨stem, rest, locale, hstem, hlongest, -, husable⟩
  · rw [hguess] at hnone
    exact absurd hnone (by decide)
  · rw [hguess] at husable
    exact ⟨stem, rest, locale, hstem, hlongest, hguess, husable⟩

end MessageCatalog.Locale
