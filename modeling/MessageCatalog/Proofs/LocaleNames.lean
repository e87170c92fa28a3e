/-
# `MessageCatalog.Proofs.LocaleNames` — the canonical code of a locale

A code is read with blank space around its two parts, in either case and with
two separators, and a language may stand alone.  What is written is none of
that any more, so that reading it changes nothing:

    parse? code = some locale  →  parse? (name locale) = some locale

Blank space and case are taken out part by part: no blank character and no
separator is a letter, and only letters have a case, so a folded part is trimmed
when the part is and has a separator when the part has one.

Everything that takes a code resolves it by `parts`, and for a code that parses
these are the parts of its locale.  So a canonical code is valid as a target
language, and as there are plural rules for every known language, it has some.
-/
import Mathlib.Data.List.DropRight
import MessageCatalog.Plural.Table
import MessageCatalog.Settings.Basic

namespace MessageCatalog

/-! ## Characters

A class without letters does not see the case of a character.  Letters are told
by their codes, and folding them moves the codes of one case to the other. -/

theorem isAlpha_iff {c : Char} :
    c.isAlpha = true ↔ 65 ≤ c.toNat ∧ c.toNat ≤ 90 ∨ 97 ≤ c.toNat ∧ c.toNat ≤ 122 := by
  unfold Char.isAlpha Char.isUpper Char.isLower
  simp [UInt32.le_iff_toNat_le]

theorem toNat_toLower (c : Char) :
    c.toLower.toNat = if 65 ≤ c.toNat ∧ c.toNat ≤ 90 then c.toNat + 32 else c.toNat := by
  have hcapital : 'A'.val ≤ c.val ∧ c.val ≤ 'Z'.val ↔ 65 ≤ c.toNat ∧ c.toNat ≤ 90 := by
    simp [UInt32.le_iff_toNat_le]
  unfold Char.toLower
  split
  · next h =>
    have hcode := hcapital.mp h
    rw [if_pos hcode]
    show (c.val + ('a'.val - 'A'.val)).toNat = _
    rw [UInt32.toNat_add]
    simp only [Char.reduceVal, UInt32.reduceSub, UInt32.reduceToNat, Char.toNat_val]
    omega
  · next h => rw [if_neg fun hcode => h (hcapital.mpr hcode)]

theorem toNat_toUpper (c : Char) :
    c.toUpper.toNat = if 97 ≤ c.toNat ∧ c.toNat ≤ 122 then c.toNat - 32 else c.toNat := by
  have hsmall : 'a'.val ≤ c.val ∧ c.val ≤ 'z'.val ↔ 97 ≤ c.toNat ∧ c.toNat ≤ 122 := by
    simp [UInt32.le_iff_toNat_le]
  unfold Char.toUpper
  split
  · next h =>
    have hcode := hsmall.mp h
    rw [if_pos hcode]
    show (c.val + ('A'.val - 'a'.val)).toNat = _
    rw [UInt32.toNat_add]
    simp only [Char.reduceVal, UInt32.reduceSub, UInt32.reduceToNat, Char.toNat_val]
    omega
  · next h => rw [if_neg fun hcode => h (hsmall.mpr hcode)]

theorem isAlpha_toUpper (c : Char) : c.toUpper.isAlpha = c.isAlpha := by
  have hcode := toNat_toUpper c
  rw [Bool.eq_iff_iff, isAlpha_iff, isAlpha_iff]
  split at hcode <;> omega

theorem toUpper_toUpper (c : Char) : c.toUpper.toUpper = c.toUpper := by
  have hcode := toNat_toUpper c
  refine Char.toNat_inj.mp ?_
  rw [toNat_toUpper c.toUpper, if_neg]
  split at hcode <;> omega

theorem apply_toLower {p : Char → Bool} (hp : ∀ c, c.isAlpha = true → p c = false) (c : Char) :
    p c.toLower = p c := by
  have hcode := toNat_toLower c
  by_cases hletter : c.isAlpha = true
  · have hfolded : c.toLower.isAlpha = true := by
      rw [isAlpha_iff] at hletter ⊢
      split at hcode <;> omega
    rw [hp c hletter, hp _ hfolded]
  · rw [isAlpha_iff] at hletter
    rw [if_neg (by omega)] at hcode
    rw [Char.toNat_inj.mp hcode]

theorem isBlank_of_isAlpha (c : Char) (h : c.isAlpha = true) : isBlank c = false := by
  have hcode := isAlpha_iff.mp h
  simp only [isBlank, Bool.or_eq_false_iff, Bool.and_eq_false_iff, decide_eq_false_iff_not,
    beq_eq_false_iff_ne]
  omega

theorem Locale.isSeparator_of_isAlpha (c : Char) (h : c.isAlpha = true) :
    isSeparator c = false := by
  rw [isSeparator, Bool.or_eq_false_iff, beq_eq_false_iff_ne, beq_eq_false_iff_ne]
  constructor <;> rintro rfl <;> cases h

/-! ## Trimming -/

theorem trimBlank_map {f : Char → Char} (hf : ∀ c, isBlank (f c) = isBlank c)
    (text : List Char) : trimBlank (text.map f) = (trimBlank text).map f := by
  have hcomp : isBlank ∘ f = isBlank := funext hf
  simp only [trimBlank, List.dropWhile_map, ← List.map_reverse, hcomp]

theorem trimBlank_of_forall {text : List Char} (h : ∀ c ∈ text, isBlank c = false) :
    trimBlank text = text := by
  have hdrop (text : List Char) (h : ∀ c ∈ text, isBlank c = false) :
      text.dropWhile isBlank = text := by
    rw [List.dropWhile_eq_self_iff]
    intro hpos
    rw [h _ (List.getElem_mem hpos)]
    exact Bool.false_ne_true
  rw [trimBlank, hdrop _ h, hdrop _ fun c hc => h c (List.mem_reverse.mp hc), List.reverse_reverse]

theorem trimBlank_trimBlank (text : List Char) : trimBlank (trimBlank text) = trimBlank text := by
  have hfront : (trimBlank text).dropWhile isBlank = trimBlank text := by
    rw [List.dropWhile_eq_self_iff]
    intro hpos
    have hstart : trimBlank text <+: text.dropWhile isBlank := List.rdropWhile_prefix _ _
    rw [hstart.getElem hpos]
    exact List.dropWhile_get_zero_not isBlank text _
  show List.rdropWhile isBlank ((trimBlank text).dropWhile isBlank) = _
  rw [hfront]
  exact List.rdropWhile_idempotent isBlank _

theorem mem_of_mem_trimBlank {c : Char} {text : List Char} (h : c ∈ trimBlank text) : c ∈ text :=
  (List.dropWhile_suffix isBlank).subset ((List.rdropWhile_prefix isBlank _).subset h)

/-! ## Cutting at a separator -/

theorem splitFirst?_eq_none_iff {p : Char → Bool} {text : List Char} :
    splitFirst? p text = none ↔ ∀ c ∈ text, p c = false := by
  induction text with
  | nil => simp [splitFirst?]
  | cons c rest ih =>
      rw [splitFirst?, List.forall_mem_cons]
      cases p c with
      | true => simp
      | false => simp [ih]

/-- The separator that a text is cut at is its first. -/
theorem forall_of_splitFirst? {p : Char → Bool} {text front back : List Char}
    (h : splitFirst? p text = some (front, back)) : ∀ c ∈ front, p c = false := by
  induction text generalizing front with
  | nil => cases h
  | cons c rest ih =>
      rw [splitFirst?] at h
      split at h
      · cases h
        exact fun _ hmem => absurd hmem List.not_mem_nil
      · next hc =>
        obtain ⟨⟨front, _⟩, hrest, heq⟩ := Option.map_eq_some_iff.mp h
        cases heq
        exact List.forall_mem_cons.mpr ⟨eq_false_of_ne_true hc, ih hrest⟩

theorem splitFirst?_append {p : Char → Bool} {front : List Char}
    (hfront : ∀ c ∈ front, p c = false) {c : Char} (hc : p c = true) (back : List Char) :
    splitFirst? p (front ++ c :: back) = some (front, back) := by
  induction front with
  | nil => exact if_pos hc
  | cons d front ih =>
      obtain ⟨hd, hfront⟩ := List.forall_mem_cons.mp hfront
      rw [List.cons_append, splitFirst?, hd, if_neg Bool.false_ne_true, ih hfront, Option.map_some]

/-! ## Languages and territories by their own codes -/

theorem Language.mem_of_ofCode? {code : List Char} {language : Language}
    (h : Language.ofCode? code = some language) : language ∈ all := by
  unfold ofCode? at h
  exact List.mem_of_find?_eq_some h

theorem Language.toList_code_of_ofCode? {code : List Char} {language : Language}
    (h : Language.ofCode? code = some language) :
    language.code.toList = (trimBlank code).map Char.toLower := by
  unfold ofCode? at h
  have hcode := List.find?_some h
  rw [beq_iff_eq] at hcode
  rw [hcode, String.toList_ofList]

theorem Language.ofCode?_code {code : List Char} {language : Language}
    (h : Language.ofCode? code = some language) :
    Language.ofCode? language.code.toList = some language := by
  have hfolded : (trimBlank language.code.toList).map Char.toLower
      = (trimBlank code).map Char.toLower := by
    rw [toList_code_of_ofCode? h, trimBlank_map (apply_toLower isBlank_of_isAlpha),
      trimBlank_trimBlank, List.map_map]
    refine List.map_congr_left fun c _ => Char.toNat_inj.mp ?_
    have hcode := toNat_toLower c
    rw [Function.comp_apply, toNat_toLower c.toLower, if_neg]
    split at hcode <;> omega
  rw [← h, ofCode?, ofCode?, hfolded]

/-- The code of a language has no separator when none was in what it was looked
up by. -/
theorem Language.isSeparator_code {code : List Char} {language : Language}
    (h : Language.ofCode? code = some language)
    (hcode : ∀ c ∈ code, Locale.isSeparator c = false) :
    ∀ c ∈ language.code.toList, Locale.isSeparator c = false := by
  rw [toList_code_of_ofCode? h, List.forall_mem_map]
  intro c hc
  rw [apply_toLower Locale.isSeparator_of_isAlpha]
  exact hcode c (mem_of_mem_trimBlank hc)

theorem Territory.ofCode?_code {code : List Char} {territory : Territory}
    (h : Territory.ofCode? code = some territory) :
    Territory.ofCode? territory.code.toList = some territory := by
  unfold ofCode? at h
  split at h
  · next a b _ =>
    split at h
    · next hletters =>
      cases h
      rw [← isAlpha_toUpper a, ← isAlpha_toUpper b] at hletters
      obtain ⟨ha, hb⟩ := Bool.and_eq_true_iff.mp hletters
      have htrim : trimBlank [a.toUpper, b.toUpper] = [a.toUpper, b.toUpper] :=
        trimBlank_of_forall <| by simp [isBlank_of_isAlpha, ha, hb]
      simp only [ofCode?, String.toList_ofList, htrim, hletters, if_true,
        toUpper_toUpper]
    · cases h
  · cases h

namespace Locale

/-! ## Canonical codes -/

/-- A locale as it is read from a code: its parts are found by their own codes,
and a language stands alone only when no territory is assumed for it. -/
structure Canonical (locale : Locale) : Prop where
  language : Language.ofCode? locale.language.code.toList = some locale.language
  unseparated : ∀ c ∈ locale.language.code.toList, isSeparator c = false
  territory : ∀ territory, locale.territory = some territory →
    Territory.ofCode? territory.code.toList = some territory
  alone : locale.territory = none → locale.language.defaultTerritory? = none

theorem canonical_of_parse? {code : List Char} {locale : Locale} (h : parse? code = some locale) :
    locale.Canonical := by
  unfold parse? at h
  split at h
  · next front back hsplit =>
    obtain ⟨language, hlanguage, h⟩ := Option.bind_eq_some_iff.mp h
    obtain ⟨territory, hterritory, h⟩ := Option.bind_eq_some_iff.mp h
    cases h
    refine ⟨Language.ofCode?_code hlanguage,
      Language.isSeparator_code hlanguage (forall_of_splitFirst? hsplit), ?_, nofun⟩
    rintro _ ⟨⟩
    exact Territory.ofCode?_code hterritory
  · next hsplit =>
    obtain ⟨language, hlanguage, h⟩ := Option.bind_eq_some_iff.mp h
    cases h
    exact ⟨Language.ofCode?_code hlanguage,
      Language.isSeparator_code hlanguage (splitFirst?_eq_none_iff.mp hsplit),
      fun _ => Territory.ofCode?_code, id⟩

/-- The canonical code of a locale is read back as the locale. -/
theorem parse?_name {locale : Locale} (h : locale.Canonical) :
    parse? locale.name.toList = some locale := by
  obtain ⟨language, territory⟩ := locale
  obtain ⟨hlanguage, hunseparated, hterritory, halone⟩ := h
  dsimp only at hlanguage hunseparated hterritory halone
  cases territory with
  | none =>
      have hsplit := splitFirst?_eq_none_iff.mpr hunseparated
      simp only [name, parse?, hsplit, hlanguage, Option.bind_eq_bind, Option.bind_some,
        halone rfl]
      rfl
  | some territory =>
      have htext : (name ⟨language, some territory⟩).toList
          = language.code.toList ++ '_' :: territory.code.toList := by
        simp [name]
      have hseparator : isSeparator '_' = true := rfl
      have hsplit := splitFirst?_append hunseparated hseparator territory.code.toList
      simp only [parse?, htext, hsplit, hlanguage, hterritory territory rfl]
      rfl

/-- A code that is read has the parts of its locale. -/
theorem parts_of_parse? {code : String} {locale : Locale}
    (h : parse? code.toList = some locale) :
    parts code = (some locale.language, locale.territory) := by
  unfold parse? at h
  unfold parts
  split at h
  · obtain ⟨language, hlanguage, h⟩ := Option.bind_eq_some_iff.mp h
    obtain ⟨territory, hterritory, h⟩ := Option.bind_eq_some_iff.mp h
    cases h
    rw [hlanguage, hterritory]
  · obtain ⟨language, hlanguage, h⟩ := Option.bind_eq_some_iff.mp h
    cases h
    simp only [hlanguage, Option.bind_some]

theorem ne_empty_of_parse? {code : String} {locale : Locale}
    (h : parse? code.toList = some locale) : code ≠ "" := by
  rintro rfl
  have hempty : parse? [] = none := by decide
  exact absurd (h.symm.trans hempty) (Option.some_ne_none _)

end Locale

/-! ## What takes a code -/

theorem Settings.languageFaults_of_parse? {code : String} {locale : Locale}
    (h : Locale.parse? code.toList = some locale) : languageFaults (some code) = [] := by
  have hnonempty : ¬ code.isEmpty = true := by
    rw [String.isEmpty_iff]
    exact Locale.ne_empty_of_parse? h
  rw [languageFaults, if_neg hnonempty, Locale.parts_of_parse? h]
  rfl

namespace Plural

set_option maxRecDepth 20000 in
/-- There are plural rules for every known language. -/
theorem any_covers_of_mem : ∀ language ∈ Language.all,
    (table.any fun row => row.covers language none) = true := by
  decide +kernel

theorem isSome_lookup {language : Language} (h : language ∈ Language.all)
    (territory : Option Territory) : (lookup language territory).isSome = true := by
  unfold lookup
  split
  · rfl
  · rw [List.find?_isSome, ← List.any_eq_true]
    exact any_covers_of_mem language h

end Plural

end MessageCatalog
