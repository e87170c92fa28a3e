/-
# `MessageCatalog.Proofs.JsonReading` — what was written as JSON reads back

A value is read from the front of a text, whatever its layout and whatever
follows it:

    readValue (render layout value ++ rest) = (value, rest)

Two things have to be asked.  What follows must not go on with a number
(`endsNumber`), since a number has no end of its own.  And the value may hold
no numbers but integers (`Integral`): any other number is kept as the literal
that it was, and only the literals of numbers read back.

The reader is bounded by fuel.  Two calls for every character suffice: a call
for an item and the call for the rest of the items share one comma or
bracket, and both are given what is left (`readItems_render`).
-/
import Mathlib.Tactic.SplitIfs
import MessageCatalog.Json.Parser
import MessageCatalog.Json.Printer
import MessageCatalog.Proofs.Utf16

namespace MessageCatalog.Json

/-! ## Blank space -/

theorem skipSpace_cons {c : Char} (h : isSpace c = false) (rest : List Char) :
    skipSpace (c :: rest) = c :: rest :=
  List.dropWhile_cons_of_neg (Bool.eq_false_iff.mp h)

theorem skipSpace_append {blank : List Char} (h : ∀ c ∈ blank, isSpace c = true)
    (rest : List Char) : skipSpace (blank ++ rest) = skipSpace rest :=
  List.dropWhile_append_of_pos h

theorem skipSpace_skipSpace (input : List Char) :
    skipSpace (skipSpace input) = skipSpace input := by
  unfold skipSpace
  induction input with
  | nil => rfl
  | cons c rest ih =>
      rw [List.dropWhile_cons]
      split
      · exact ih
      · next hc => exact List.dropWhile_cons_of_neg hc

theorem isSpace_of_mem_lineStart {layout : Layout} :
    ∀ c ∈ layout.lineStart, isSpace c = true := by
  cases layout with
  | compact => nofun
  | spread level =>
      intro c hc
      rcases List.mem_cons.mp hc with rfl | hc
      · rfl
      · rw [List.eq_of_mem_replicate hc]
        rfl

theorem skipSpace_lineStart (layout : Layout) (rest : List Char) :
    skipSpace (layout.lineStart ++ rest) = skipSpace rest :=
  skipSpace_append isSpace_of_mem_lineStart rest

/-! ## Texts -/

/-- A control character is read from its two digits. -/
theorem hexUnit?_digits (n : Nat) (h : n < 0x20) :
    hexUnit? '0' '0' (Hex.digit (n / 16)) (Hex.digit (n % 16)) = some (UInt16.ofNat n) := by
  have hzero : Hex.value? '0' = some 0 := rfl
  have hhigh := Hex.value?_digit (n / 16) (by omega)
  have hlow := Hex.value?_digit (n % 16) (by omega)
  have hnumber : ((0 * 16 + 0) * 16 + n / 16) * 16 + n % 16 = n := by omega
  simp only [hexUnit?, hzero, hhigh, hlow, Option.bind_eq_bind, Option.bind_some, hnumber]
  rfl

section

variable {read : List UInt16} {rest : List Char}

theorem readUnits_quote : readUnits read ('"' :: rest) = some (read.reverse, rest) := by
  rw [readUnits.eq_def]
  exact if_pos rfl

theorem readUnits_plain {c : Char} (hquote : c ≠ '"') (hslash : c ≠ '\\')
    (hcontrol : ¬ c.toNat < 0x20) :
    readUnits read (c :: rest) = readUnits ((Utf16.unitsOf c).reverse ++ read) rest := by
  rw [readUnits.eq_def]
  dsimp only
  rw [if_neg hquote, if_neg hslash, if_neg hcontrol]

theorem readUnits_short {escape meant : Char} (h : shortEscape? escape = some meant) :
    readUnits read ('\\' :: escape :: rest)
      = readUnits ((Utf16.unitsOf meant).reverse ++ read) rest := by
  rw [readUnits.eq_def]
  simp [h]

theorem readUnits_hex {a b c d : Char} {unit : UInt16} (h : hexUnit? a b c d = some unit) :
    readUnits read ('\\' :: 'u' :: a :: b :: c :: d :: rest) = readUnits (unit :: read) rest := by
  have hshort : shortEscape? 'u' = none := rfl
  rw [readUnits.eq_def]
  simp [h, hshort]

end

/-- A character reads as its code units, written as it is or escaped. -/
theorem readUnits_escaped (c : Char) (read : List UInt16) (rest : List Char) :
    readUnits read (escaped c ++ rest) = readUnits ((Utf16.unitsOf c).reverse ++ read) rest := by
  unfold escaped
  split_ifs with hquote hslash hback hfeed hline hreturn htab hcontrol
  · rw [hquote]
    exact readUnits_short rfl
  · rw [hslash]
    exact readUnits_short rfl
  · exact hback ▸ readUnits_short rfl
  · exact hfeed ▸ readUnits_short rfl
  · exact hline ▸ readUnits_short rfl
  · exact hreturn ▸ readUnits_short rfl
  · exact htab ▸ readUnits_short rfl
  · have hunits : Utf16.unitsOf c = [UInt16.ofNat c.toNat] :=
      if_pos (Nat.lt_trans hcontrol (by decide))
    rw [hunits]
    exact readUnits_hex (hexUnit?_digits c.toNat hcontrol)
  · exact readUnits_plain hquote hslash hcontrol

theorem readUnits_text (cs : List Char) : ∀ (read : List UInt16) (rest : List Char),
    readUnits read (cs.flatMap escaped ++ '"' :: rest)
      = some (read.reverse ++ cs.flatMap Utf16.unitsOf, rest) := by
  induction cs with
  | nil =>
      intro read rest
      rw [List.flatMap_nil, List.flatMap_nil, List.append_nil]
      exact readUnits_quote
  | cons c cs ih =>
      intro read rest
      rw [List.flatMap_cons, List.flatMap_cons, List.append_assoc, readUnits_escaped, ih,
        List.reverse_append, List.reverse_reverse, List.append_assoc]

theorem textOfUnits_units (content : String) :
    textOfUnits (Utf16.units content) = some content := by
  have hall : (content.toList.map some).mapM id = some content.toList := by
    induction content.toList with
    | nil => rfl
    | cons c cs ih => rw [List.map_cons, List.mapM_cons, ih]; rfl
  rw [textOfUnits, Utf16.scan_units, hall, Option.map_some, String.ofList_toList]

/-- A text literal reads back, and so does the literal that stands for no
text. -/
theorem exists_quoted (content : Option String) :
    ∃ body, quoted content = '"' :: body
      ∧ ∀ rest, readText (body ++ rest) = some (content, rest) := by
  cases content with
  | none =>
      -- a half of a pair, without the other one
      have hunit : hexUnit? 'd' '8' '0' '0' = some 0xD800 := by decide
      refine ⟨_, rfl, fun rest => ?_⟩
      exact congrArg (Option.map _) ((readUnits_hex hunit).trans readUnits_quote)
  | some content =>
      refine ⟨content.toList.flatMap escaped ++ ['"'], rfl, fun rest => ?_⟩
      rw [readText, List.append_assoc, List.singleton_append, readUnits_text]
      exact congrArg (fun read => some (read, rest)) (textOfUnits_units content)

/-! ## Integers -/

/-- What follows a number does not go on with it. -/
def endsNumber (rest : List Char) : Bool :=
  rest.head?.all fun c => !(c.isDigit || c == '.' || c == 'e' || c == 'E')

theorem digitsValue_toDigits (n : Nat) : digitsValue (Nat.toDigits 10 n) = n := by
  have hvalue := Nat.ofDigitChars_ten_toDigits (n := n)
  rw [Nat.ofDigitChars_eq_foldl] at hvalue
  simp only [Nat.mul_comm 10] at hvalue
  exact hvalue

/-- Only zero is written with a zero in front. -/
theorem eq_zero_of_toDigits {n : Nat} {digits : List Char}
    (h : Nat.toDigits 10 n = '0' :: digits) : n = 0 := by
  induction n using Nat.strongRecOn generalizing digits with
  | ind n ih =>
      by_cases hsmall : n < 10
      · have hdigit : ∀ n, n < 10 → n.digitChar = '0' → n = 0 := by decide
        rw [Nat.toDigits_of_lt_base hsmall] at h
        exact hdigit n hsmall (List.cons.inj h).1
      · rw [Nat.toDigits_of_base_le (by decide) (Nat.le_of_not_lt hsmall)] at h
        cases hfront : Nat.toDigits 10 (n / 10) with
        | nil => exact absurd hfront Nat.toDigits_ne_nil
        | cons c front =>
            rw [hfront] at h
            have hzero := ih (n / 10) (by omega) (hfront.trans (by rw [(List.cons.inj h).1]))
            omega

theorem isDigit_toDigits (n : Nat) : ∀ c ∈ Nat.toDigits 10 n, c.isDigit = true :=
  fun _ hc => Nat.isDigit_of_mem_toDigits (by decide) (by decide) hc

theorem readDigits_toDigits (n : Nat) {rest : List Char} (hrest : endsNumber rest = true) :
    readDigits (Nat.toDigits 10 n ++ rest) = some (Nat.toDigits 10 n, rest) := by
  have hstop : rest.takeWhile Char.isDigit = [] ∧ rest.dropWhile Char.isDigit = rest := by
    cases rest with
    | nil => exact ⟨rfl, rfl⟩
    | cons c rest =>
        have hc : c.isDigit = false := by
          cases hdigit : c.isDigit with
          | false => rfl
          | true => simp [endsNumber, hdigit] at hrest
        exact ⟨List.takeWhile_cons_of_neg (by simp [hc]), List.dropWhile_cons_of_neg (by simp [hc])⟩
  unfold readDigits
  rw [List.takeWhile_append_of_pos (isDigit_toDigits n), hstop.1, List.append_nil,
    List.dropWhile_append_of_pos (isDigit_toDigits n), hstop.2]
  exact if_neg (by simp)

theorem readWhole_toDigits (n : Nat) {rest : List Char} (hrest : endsNumber rest = true) :
    readWhole (Nat.toDigits 10 n ++ rest) = some (Nat.toDigits 10 n, rest) := by
  unfold readWhole
  rw [readDigits_toDigits n hrest]
  split
  · next _ second digits _ heq =>
    -- a zero in front stands alone
    have hdigits : Nat.toDigits 10 n = '0' :: second :: digits :=
      congrArg Prod.fst (Option.some.inj heq)
    rw [eq_zero_of_toDigits hdigits] at hdigits
    cases hdigits
  · rfl

theorem readFraction_of_endsNumber {rest : List Char} (hrest : endsNumber rest = true) :
    readFraction rest = some ([], rest) := by
  unfold readFraction
  split
  · cases hrest
  · rfl

theorem readExponent_of_endsNumber {rest : List Char} (hrest : endsNumber rest = true) :
    readExponent rest = some ([], rest) := by
  unfold readExponent
  split
  · rfl
  · next c rest =>
    have hletter : ¬(c = 'e' || c = 'E') = true := by
      intro hc
      simp only [Bool.or_eq_true, decide_eq_true_eq] at hc
      rcases hc with rfl | rfl
      · cases hrest
      · cases hrest
    exact if_neg hletter

theorem readNumber_of_whole {input whole rest : List Char}
    (hsign : (input.head? == some '-') = false)
    (hwhole : readWhole input = some (whole, rest)) (hrest : endsNumber rest = true) :
    readNumber input = some (numberOf false whole [] [], rest) := by
  simp [readNumber, hsign, hwhole, readFraction_of_endsNumber hrest,
    readExponent_of_endsNumber hrest]

theorem readNumber_of_minus {input whole rest : List Char}
    (hwhole : readWhole input = some (whole, rest)) (hrest : endsNumber rest = true) :
    readNumber ('-' :: input) = some (numberOf true whole [] [], rest) := by
  simp [readNumber, hwhole, readFraction_of_endsNumber hrest, readExponent_of_endsNumber hrest]

/-- A number of decimal digits has a digit in front. -/
theorem exists_toDigits (n : Nat) :
    ∃ c digits, Nat.toDigits 10 n = c :: digits ∧ c.isDigit = true := by
  cases hdigits : Nat.toDigits 10 n with
  | nil => exact absurd hdigits Nat.toDigits_ne_nil
  | cons c digits => exact ⟨c, digits, rfl, isDigit_toDigits n c (hdigits ▸ List.mem_cons_self)⟩

theorem toList_toString_ofNat (n : Nat) :
    (toString (Int.ofNat n)).toList = Nat.toDigits 10 n := by
  rw [Int.toString_eq_repr]
  exact Nat.toList_repr

theorem toList_toString_negSucc (n : Nat) :
    (toString (Int.negSucc n)).toList = '-' :: Nat.toDigits 10 (n + 1) := by
  rw [Int.toString_eq_repr, ← Nat.toList_repr]
  exact String.toList_append

/-- An integer reads back from its decimal digits. -/
theorem readNumber_toString (value : Int) {rest : List Char} (hrest : endsNumber rest = true) :
    readNumber ((toString value).toList ++ rest) = some (.integer value, rest) := by
  cases value with
  | ofNat n =>
      obtain ⟨c, digits, hdigits, hc⟩ := exists_toDigits n
      have hsign : ((Nat.toDigits 10 n ++ rest).head? == some '-') = false := by
        rw [hdigits]
        refine beq_eq_false_iff_ne.mpr fun heq => ?_
        rw [Option.some.inj heq] at hc
        cases hc
      rw [toList_toString_ofNat, readNumber_of_whole hsign (readWhole_toDigits n hrest) hrest,
        numberOf, digitsValue_toDigits]
      rfl
  | negSucc n =>
      have hnonzero : (Nat.toDigits 10 (n + 1) == ['0']) = false := by
        refine beq_eq_false_iff_ne.mpr fun heq => ?_
        exact absurd (eq_zero_of_toDigits heq) (Nat.succ_ne_zero n)
      rw [toList_toString_negSucc, List.cons_append,
        readNumber_of_minus (readWhole_toDigits (n + 1) hrest) hrest, numberOf, hnonzero,
        digitsValue_toDigits]
      rfl

/-! ## Values -/

/-- All numbers in a value are integers. -/
inductive Integral : Json → Prop
  | null : Integral .null
  | boolean (value : Bool) : Integral (.boolean value)
  | integer (value : Int) : Integral (.integer value)
  | text (value : Option String) : Integral (.text value)
  | array {items : List Json} : (∀ item ∈ items, Integral item) → Integral (.array items)
  | object {members : List (Option String × Json)} :
      (∀ member ∈ members, Integral member.2) → Integral (.object members)

theorem readValue_skipSpace (fuel : Nat) (input : List Char) :
    readValue fuel (skipSpace input) = readValue fuel input := by
  cases fuel with
  | zero => rw [readValue, readValue]
  | succ fuel => rw [readValue, readValue, skipSpace_skipSpace]

theorem readItems_skipSpace (fuel : Nat) (read : List Json) (input : List Char) :
    readItems fuel read (skipSpace input) = readItems fuel read input := by
  cases fuel with
  | zero => rw [readItems, readItems]
  | succ fuel => rw [readItems, readItems, readValue_skipSpace]

theorem readMembers_skipSpace (fuel : Nat) (read : List (Option String × Json))
    (input : List Char) :
    readMembers fuel read (skipSpace input) = readMembers fuel read input := by
  cases fuel with
  | zero => rw [readMembers, readMembers]
  | succ fuel => rw [readMembers, readMembers, skipSpace_skipSpace]

/-! ## Parts between brackets -/

/-- Parts that are separated by commas, each on a line of its own. -/
def joined (layout : Layout) (parts : List (List Char)) : List Char :=
  ((parts.map fun part => layout.inner.lineStart ++ part).intersperse [',']).flatten

section

variable {layout : Layout}

theorem bracketed_cons (opening closing : Char) (part : List Char) (parts : List (List Char)) :
    bracketed layout opening closing (part :: parts)
      = opening :: (joined layout (part :: parts) ++ (layout.lineStart ++ [closing])) := by
  rw [← List.append_assoc]
  rfl

theorem joined_singleton (part : List Char) :
    joined layout [part] = layout.inner.lineStart ++ part := by
  simp [joined]

theorem joined_cons_cons (part next : List Char) (parts : List (List Char)) :
    joined layout (part :: next :: parts)
      = layout.inner.lineStart ++ (part ++ ',' :: joined layout (next :: parts)) := by
  simp [joined]

theorem endsNumber_lineStart {closing : Char} (h : endsNumber [closing] = true)
    (rest : List Char) : endsNumber (layout.lineStart ++ closing :: rest) = true := by
  cases layout with
  | compact => exact h
  | spread level => rfl

theorem skipSpace_closing {closing : Char} (h : isSpace closing = false) (rest : List Char) :
    skipSpace (layout.lineStart ++ closing :: rest) = closing :: rest :=
  (skipSpace_lineStart layout _).trans (skipSpace_cons h rest)

/-- A value is read from the front of a text that it was written to. -/
def ReadsBack (layout : Layout) (value : Json) : Prop :=
  ∀ fuel rest, 2 * (render layout value).length ≤ fuel → endsNumber rest = true →
    readValue fuel (render layout value ++ rest) = some (value, rest)

theorem readValue_lineStart (fuel : Nat) (input : List Char) :
    readValue fuel (layout.lineStart ++ input) = readValue fuel input := by
  rw [← readValue_skipSpace, skipSpace_lineStart, readValue_skipSpace]

theorem readItems_next {fuel : Nat} {read : List Json} {item : Json} {input rest : List Char}
    (h : readValue fuel input = some (item, ',' :: rest)) :
    readItems (fuel + 1) read input = readItems fuel (item :: read) rest := by
  rw [readItems, h]
  dsimp only
  rw [skipSpace_cons rfl]
  rfl

theorem readItems_last {fuel : Nat} {read : List Json} {item : Json} {input rest : List Char}
    (h : readValue fuel input = some (item, layout.lineStart ++ ']' :: rest)) :
    readItems (fuel + 1) read input = some (read.reverse ++ [item], rest) := by
  rw [readItems, h]
  dsimp only
  rw [skipSpace_closing rfl, ← List.reverse_cons]
  rfl

/-- The items of an array from one on.  The call for the other items is given
the fuel that the comma in front of them leaves. -/
theorem readItems_render (items : List Json) : ∀ item : Json,
    (∀ value ∈ item :: items, ReadsBack layout.inner value) →
    ∀ (fuel : Nat) (read : List Json) (rest : List Char),
      2 * (joined layout (renderItems layout.inner (item :: items))).length + 2 ≤ fuel →
      readItems fuel read (joined layout (renderItems layout.inner (item :: items))
          ++ (layout.lineStart ++ ']' :: rest))
        = some (read.reverse ++ item :: items, rest) := by
  induction items with
  | nil =>
      intro item hitems fuel read rest hfuel
      have hjoined : joined layout (renderItems layout.inner [item])
          = layout.inner.lineStart ++ render layout.inner item := joined_singleton _
      rw [hjoined] at hfuel ⊢
      rw [List.length_append] at hfuel
      obtain ⟨fuel, rfl⟩ := Nat.exists_eq_add_one.mpr (show 0 < fuel by omega)
      have hitem := hitems item List.mem_cons_self fuel (layout.lineStart ++ ']' :: rest)
        (by omega) (endsNumber_lineStart rfl rest)
      rw [List.append_assoc]
      exact readItems_last ((readValue_lineStart fuel _).trans hitem)
  | cons next items ih =>
      intro item hitems fuel read rest hfuel
      have hothers := ih next fun value hvalue => hitems value (List.mem_cons_of_mem _ hvalue)
      have hjoined : joined layout (renderItems layout.inner (item :: next :: items))
          = layout.inner.lineStart ++ (render layout.inner item
              ++ ',' :: joined layout (renderItems layout.inner (next :: items))) :=
        joined_cons_cons _ _ _
      rw [hjoined] at hfuel ⊢
      simp only [List.length_append, List.length_cons] at hfuel
      obtain ⟨fuel, rfl⟩ := Nat.exists_eq_add_one.mpr (show 0 < fuel by omega)
      have hitem := hitems item List.mem_cons_self fuel
        (',' :: (joined layout (renderItems layout.inner (next :: items))
          ++ (layout.lineStart ++ ']' :: rest))) (by omega) rfl
      rw [List.append_assoc, List.append_assoc, List.cons_append,
        readItems_next ((readValue_lineStart fuel _).trans hitem), hothers fuel _ rest (by omega),
        List.reverse_cons, List.append_assoc, List.singleton_append]

theorem readMembers_lineStart (fuel : Nat) (read : List (Option String × Json))
    (input : List Char) :
    readMembers fuel read (layout.lineStart ++ input) = readMembers fuel read input := by
  rw [← readMembers_skipSpace, skipSpace_lineStart, readMembers_skipSpace]

theorem readValue_colon (layout : Layout) (fuel : Nat) (input : List Char) :
    ∃ rest, layout.colon ++ input = ':' :: rest ∧ readValue fuel rest = readValue fuel input := by
  cases layout with
  | compact => exact ⟨input, rfl, rfl⟩
  | spread level =>
      refine ⟨' ' :: input, rfl, ?_⟩
      rw [← readValue_skipSpace fuel (' ' :: input)]
      exact readValue_skipSpace fuel input

section

variable {fuel : Nat} {read : List (Option String × Json)} {name : Option String} {value : Json}
  {input rest : List Char}

/-- A member reads as its name and its value.  Behind it a comma or the
closing brace is read. -/
theorem readMembers_member (h : readValue fuel input = some (value, rest)) :
    (∀ tail, skipSpace rest = ',' :: tail →
        readMembers (fuel + 1) read (quoted name ++ (layout.colon ++ input))
          = readMembers fuel ((name, value) :: read) tail)
      ∧ ∀ tail, skipSpace rest = '}' :: tail →
        readMembers (fuel + 1) read (quoted name ++ (layout.colon ++ input))
          = some (((name, value) :: read).reverse, tail) := by
  obtain ⟨body, hquoted, hbody⟩ := exists_quoted name
  obtain ⟨after, hcolon, hafter⟩ := readValue_colon layout fuel input
  have hspace : skipSpace (':' :: after) = ':' :: after := skipSpace_cons rfl _
  rw [readMembers, hquoted, List.cons_append, skipSpace_cons rfl]
  refine ⟨?_, ?_⟩
  · intro tail htail
    simp only [hbody, hcolon, hspace, hafter, h, htail]
  · intro tail htail
    simp only [hbody, hcolon, hspace, hafter, h, htail]

theorem readMembers_next (h : readValue fuel input = some (value, ',' :: rest)) :
    readMembers (fuel + 1) read (quoted name ++ (layout.colon ++ input))
      = readMembers fuel ((name, value) :: read) rest :=
  (readMembers_member h).1 rest (skipSpace_cons rfl rest)

theorem readMembers_last
    (h : readValue fuel input = some (value, layout.lineStart ++ '}' :: rest)) :
    readMembers (fuel + 1) read (quoted name ++ (layout.inner.colon ++ input))
      = some (read.reverse ++ [(name, value)], rest) := by
  rw [(readMembers_member h).2 rest (skipSpace_closing rfl rest), List.reverse_cons]

end

/-- The members of an object from one on. -/
theorem readMembers_render (members : List (Option String × Json)) :
    ∀ member : Option String × Json,
    (∀ named ∈ member :: members, ReadsBack layout.inner named.2) →
    ∀ (fuel : Nat) (read : List (Option String × Json)) (rest : List Char),
      2 * (joined layout (renderMembers layout.inner (member :: members))).length + 2 ≤ fuel →
      readMembers fuel read (joined layout (renderMembers layout.inner (member :: members))
          ++ (layout.lineStart ++ '}' :: rest))
        = some (read.reverse ++ member :: members, rest) := by
  induction members with
  | nil =>
      rintro ⟨name, value⟩ hmembers fuel read rest hfuel
      have hjoined : joined layout (renderMembers layout.inner [(name, value)])
          = layout.inner.lineStart
              ++ (quoted name ++ layout.inner.colon ++ render layout.inner value) :=
        joined_singleton _
      rw [hjoined] at hfuel ⊢
      simp only [List.length_append] at hfuel
      obtain ⟨fuel, rfl⟩ := Nat.exists_eq_add_one.mpr (show 0 < fuel by omega)
      have hback : ReadsBack layout.inner value := hmembers (name, value) List.mem_cons_self
      have hvalue := hback fuel (layout.lineStart ++ '}' :: rest) (by omega)
        (endsNumber_lineStart rfl rest)
      rw [List.append_assoc, List.append_assoc, List.append_assoc, readMembers_lineStart]
      exact readMembers_last hvalue
  | cons next members ih =>
      rintro ⟨name, value⟩ hmembers fuel read rest hfuel
      have hothers := ih next fun named hnamed => hmembers named (List.mem_cons_of_mem _ hnamed)
      have hjoined : joined layout (renderMembers layout.inner ((name, value) :: next :: members))
          = layout.inner.lineStart
              ++ (quoted name ++ layout.inner.colon ++ render layout.inner value
                ++ ',' :: joined layout (renderMembers layout.inner (next :: members))) :=
        joined_cons_cons _ _ _
      rw [hjoined] at hfuel ⊢
      simp only [List.length_append, List.length_cons] at hfuel
      obtain ⟨fuel, rfl⟩ := Nat.exists_eq_add_one.mpr (show 0 < fuel by omega)
      have hback : ReadsBack layout.inner value := hmembers (name, value) List.mem_cons_self
      have hvalue := hback fuel
        (',' :: (joined layout (renderMembers layout.inner (next :: members))
          ++ (layout.lineStart ++ '}' :: rest))) (by omega) rfl
      simp only [List.append_assoc, List.cons_append]
      rw [readMembers_lineStart, readMembers_next hvalue, hothers fuel _ rest (by omega),
        List.reverse_cons, List.append_assoc, List.singleton_append]

end

/-! ## Whole values -/

theorem isSpace_of_isDigit {c : Char} (h : c.isDigit = true) : isSpace c = false := by
  refine Bool.eq_false_iff.mpr fun hspace => ?_
  simp only [isSpace, Bool.or_eq_true, beq_iff_eq] at hspace
  rcases hspace with ((rfl | rfl) | rfl) | rfl <;> cases h

/-- A digit or a minus sign starts a number. -/
theorem readValue_number {c : Char} (hc : c.isDigit = true ∨ c = '-') (fuel : Nat)
    (rest : List Char) : readValue (fuel + 1) (c :: rest) = readNumber (c :: rest) := by
  rcases hc with hc | rfl
  · rw [readValue, skipSpace_cons (isSpace_of_isDigit hc)]
    split
    all_goals first
      | rfl
      | next heq => obtain ⟨rfl, -⟩ := List.cons.inj heq; cases hc
  · rfl

theorem readItems_closing (fuel : Nat) (read : List Json) (rest : List Char) :
    readItems fuel read (']' :: rest) = none := by
  cases fuel with
  | zero => rfl
  | succ fuel =>
      rw [readItems]
      cases fuel with
      | zero => rfl
      | succ fuel => rfl

theorem readMembers_closing (fuel : Nat) (read : List (Option String × Json)) (rest : List Char) :
    readMembers fuel read ('}' :: rest) = none := by
  cases fuel with
  | zero => rfl
  | succ fuel => rfl

section

variable {fuel : Nat} {input rest : List Char}

theorem readValue_array {items : List Json} (h : readItems fuel [] input = some (items, rest)) :
    readValue (fuel + 1) ('[' :: input) = some (.array items, rest) := by
  rw [← readItems_skipSpace] at h
  rw [readValue, skipSpace_cons rfl]
  split
  case h_5 heq =>
    obtain ⟨-, rfl⟩ := List.cons.inj heq
    split
    · next heq =>
      -- no item starts with the closing bracket
      rw [heq, readItems_closing] at h
      cases h
    · rw [h]
      rfl
  case h_7 hne _ => exact absurd rfl (hne input)
  all_goals next heq => cases heq

theorem readValue_object {members : List (Option String × Json)}
    (h : readMembers fuel [] input = some (members, rest)) :
    readValue (fuel + 1) ('{' :: input) = some (.object members, rest) := by
  rw [← readMembers_skipSpace] at h
  rw [readValue, skipSpace_cons rfl]
  split
  case h_6 heq =>
    obtain ⟨-, rfl⟩ := List.cons.inj heq
    split
    · next heq =>
      rw [heq, readMembers_closing] at h
      cases h
    · rw [h]
      rfl
  case h_7 hne => exact absurd rfl (hne input)
  all_goals next heq => cases heq

end

theorem readsBack_of_succ {layout : Layout} {value : Json} (hne : render layout value ≠ [])
    (h : ∀ fuel rest, 2 * (render layout value).length ≤ fuel + 1 → endsNumber rest = true →
      readValue (fuel + 1) (render layout value ++ rest) = some (value, rest)) :
    ReadsBack layout value := by
  intro fuel rest hfuel hrest
  have hpos : 0 < (render layout value).length := List.length_pos_of_ne_nil hne
  obtain ⟨fuel, rfl⟩ := Nat.exists_eq_add_one.mpr (show 0 < fuel by omega)
  exact h fuel rest hfuel hrest

theorem readsBack_integer (value : Int) (layout : Layout) : ReadsBack layout (.integer value) := by
  have hstart : ∃ c digits, render layout (.integer value) = c :: digits
      ∧ (c.isDigit = true ∨ c = '-') := by
    cases value with
    | ofNat n =>
        obtain ⟨c, digits, hdigits, hc⟩ := exists_toDigits n
        exact ⟨c, digits, (toList_toString_ofNat n).trans hdigits, .inl hc⟩
    | negSucc n => exact ⟨'-', _, toList_toString_negSucc n, .inr rfl⟩
  obtain ⟨c, digits, hdigits, hc⟩ := hstart
  refine readsBack_of_succ (hdigits ▸ List.cons_ne_nil _ _) fun fuel rest _ hrest => ?_
  have hread : readNumber (render layout (.integer value) ++ rest) = some (.integer value, rest) :=
    readNumber_toString value hrest
  rw [hdigits] at hread ⊢
  exact (readValue_number hc fuel _).trans hread

theorem readsBack_text (content : Option String) (layout : Layout) :
    ReadsBack layout (.text content) := by
  obtain ⟨body, hquoted, hbody⟩ := exists_quoted content
  have hrender : render layout (.text content) = '"' :: body := hquoted
  refine readsBack_of_succ (hrender ▸ List.cons_ne_nil _ _) fun fuel rest _ _ => ?_
  have hstart : readValue (fuel + 1) ('"' :: (body ++ rest))
      = (readText (body ++ rest)).map fun read => (.text read.1, read.2) := rfl
  rw [hrender, List.cons_append, hstart, hbody]
  rfl

theorem readsBack_array {items : List Json} {layout : Layout}
    (h : ∀ item ∈ items, ReadsBack layout.inner item) : ReadsBack layout (.array items) := by
  cases items with
  | nil => exact readsBack_of_succ (List.cons_ne_nil _ _) fun _ _ _ _ => rfl
  | cons item items =>
      have hrender : render layout (.array (item :: items))
          = '[' :: (joined layout (renderItems layout.inner (item :: items))
              ++ (layout.lineStart ++ [']'])) := bracketed_cons _ _ _ _
      refine readsBack_of_succ (hrender ▸ List.cons_ne_nil _ _) fun fuel rest hfuel _ => ?_
      rw [hrender] at hfuel ⊢
      simp only [List.length_append, List.length_cons] at hfuel
      have hitems := readItems_render items item h fuel [] rest (by omega)
      simp only [List.cons_append, List.append_assoc]
      exact readValue_array hitems

theorem readsBack_object {members : List (Option String × Json)} {layout : Layout}
    (h : ∀ member ∈ members, ReadsBack layout.inner member.2) :
    ReadsBack layout (.object members) := by
  cases members with
  | nil => exact readsBack_of_succ (List.cons_ne_nil _ _) fun _ _ _ _ => rfl
  | cons member members =>
      have hrender : render layout (.object (member :: members))
          = '{' :: (joined layout (renderMembers layout.inner (member :: members))
              ++ (layout.lineStart ++ ['}'])) := bracketed_cons _ _ _ _
      refine readsBack_of_succ (hrender ▸ List.cons_ne_nil _ _) fun fuel rest hfuel _ => ?_
      rw [hrender] at hfuel ⊢
      simp only [List.length_append, List.length_cons] at hfuel
      have hmembers := readMembers_render members member h fuel [] rest (by omega)
      simp only [List.cons_append, List.append_assoc]
      exact readValue_object hmembers

/-- Reading takes back writing, in every layout. -/
theorem readsBack_of_integral {value : Json} (h : Integral value) :
    ∀ layout, ReadsBack layout value := by
  induction h with
  | null => exact fun _ => readsBack_of_succ (List.cons_ne_nil _ _) fun _ _ _ _ => rfl
  | boolean value =>
      intro layout
      cases value with
      | false => exact readsBack_of_succ (List.cons_ne_nil _ _) fun _ _ _ _ => rfl
      | true => exact readsBack_of_succ (List.cons_ne_nil _ _) fun _ _ _ _ => rfl
  | integer value => exact readsBack_integer value
  | text content => exact readsBack_text content
  | array _ ih => exact fun layout => readsBack_array fun item hitem => ih item hitem layout.inner
  | object _ ih =>
      exact fun layout => readsBack_object fun member hmember => ih member hmember layout.inner

theorem endsNumber_blank {blank : List Char} (hblank : ∀ c ∈ blank, isSpace c = true) :
    endsNumber blank = true := by
  cases blank with
  | nil => rfl
  | cons c blank =>
      have hc := hblank c List.mem_cons_self
      simp only [isSpace, Bool.or_eq_true, beq_iff_eq] at hc
      rcases hc with ((rfl | rfl) | rfl) | rfl <;> rfl

/-- A value is parsed from its text in every layout, with any blank space
after it. -/
theorem parse?_render {value : Json} (h : Integral value) (layout : Layout) {blank : List Char}
    (hblank : ∀ c ∈ blank, isSpace c = true) :
    parse? (String.ofList (render layout value ++ blank)) = some value := by
  have hread := readsBack_of_integral h layout (2 * (render layout value ++ blank).length + 2) blank
    (by rw [List.length_append]; omega) (endsNumber_blank hblank)
  have hleft : skipSpace blank = [] := by
    rw [← List.append_nil blank, skipSpace_append hblank]
    rfl
  rw [parse?, String.toList_ofList, hread]
  dsimp only
  rw [hleft]
  rfl

end MessageCatalog.Json
