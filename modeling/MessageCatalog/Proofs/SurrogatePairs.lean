/-
# `MessageCatalog.Proofs.SurrogatePairs` — which bytes are the UTF-16 of a text

That a text reads back is the subject of `MessageCatalog.Proofs.Utf16`.  Here
is the other direction: units of which a scan marked none are the units of
the characters that it found,

    scan us = cs.map some  →  us = cs.flatMap unitsOf

so reading is valid on the spellings of texts only, and a text has no second
spelling.  Whether units can be read can also be told without reading them:

    a second half stands behind every first half and nowhere else

Both laws are shown of a scan that has a first half in front of it, as that
is what it carries from one unit to the next.
-/
import MessageCatalog.Proofs.Utf16

namespace MessageCatalog

namespace Bytes

/-! ## Words -/

theorem ofWord16_word16 (high low : UInt8) : ofWord16 (word16 high low) = [high, low] := by
  have hhigh := high.toNat_lt
  have hlow := low.toNat_lt
  have hword : (word16 high low).toNat = high.toNat * 256 + low.toNat :=
    UInt16.toNat_ofNat_of_lt' (show _ < 65536 by omega)
  rw [ofWord16, hword, show (high.toNat * 256 + low.toNat) / 256 = high.toNat by omega,
    UInt8.ofNat_toNat]
  congr 2
  apply UInt8.toNat_inj.mp
  rw [UInt8.toNat_ofNat']
  omega

/-- Bytes of an even number are the digits of their words. -/
theorem flatMap_ofWord16_words16 :
    ∀ {bytes : Bytes}, bytes.length % 2 = 0 → (words16 bytes).flatMap ofWord16 = bytes
  | [], _ => rfl
  | [_], h => absurd h Nat.one_ne_zero
  | high :: low :: rest, h => by
      have hrest : rest.length % 2 = 0 := by
        simp only [List.length_cons] at h
        omega
      rw [words16, List.flatMap_cons, ofWord16_word16, flatMap_ofWord16_words16 hrest]
      rfl

end Bytes

namespace Utf16

/-! ## Units -/

theorem isLow_of_isHigh {u : UInt16} (h : isHigh u = true) : isLow u = false := by
  rw [← Bool.not_eq_true, isLow_iff]
  have := isHigh_iff.mp h
  omega

theorem isHigh_of_isLow {u : UInt16} (h : isLow u = true) : isHigh u = false := by
  rw [← Bool.not_eq_true, isHigh_iff]
  have := isLow_iff.mp h
  omega

/-- A number that is no surrogate is the code point of its character. -/
theorem toNat_ofNat {n : Nat} (h : n < 0xD800 ∨ 0xDFFF < n ∧ n < 0x110000) :
    (Char.ofNat n).toNat = n := by
  rw [Char.ofNat, dif_pos h]
  rfl

theorem unitsOf_single {u : UInt16} {c : Char} (hhigh : isHigh u = false)
    (h : single u = some c) : unitsOf c = [u] := by
  rw [single, Option.ite_none_left_eq_some, Option.some.injEq, isLow_iff] at h
  obtain ⟨hlow, rfl⟩ := h
  rw [← Bool.not_eq_true, isHigh_iff] at hhigh
  have hsize := u.toNat_lt
  have hpoint : (Char.ofNat u.toNat).toNat = u.toNat := toNat_ofNat (by omega)
  rw [unitsOf, hpoint, if_pos hsize, UInt16.ofNat_toNat]

theorem unitsOf_paired {high low : UInt16} (hhigh : isHigh high = true)
    (hlow : isLow low = true) : unitsOf (paired high low) = [high, low] := by
  rw [isHigh_iff] at hhigh
  rw [isLow_iff] at hlow
  have hpoint : (paired high low).toNat
      = 0x10000 + (high.toNat - 0xD800) * 0x400 + (low.toNat - 0xDC00) :=
    toNat_ofNat (by omega)
  have hfirst : 0xD800 + ((paired high low).toNat - 0x10000) / 0x400 = high.toNat := by omega
  have hsecond : 0xDC00 + ((paired high low).toNat - 0x10000) % 0x400 = low.toNat := by omega
  rw [unitsOf, if_neg (by omega), hfirst, hsecond, UInt16.ofNat_toNat, UInt16.ofNat_toNat]

/-! ## Scans without a mark -/

/-- What was read is the spelling of what was found, the first half in front
included. -/
theorem append_eq_flatMap_unitsOf {half : Option UInt16} {us : List UInt16} {cs : List Char}
    (hhalf : ∀ high ∈ half, isHigh high = true) (h : scanFrom half us = cs.map some) :
    half.toList ++ us = cs.flatMap unitsOf := by
  fun_induction scanFrom half us generalizing cs with
  | case1 half =>
      cases half with
      | none =>
          rw [List.map_eq_nil_iff.mp h.symm]
          rfl
      | some high =>
          obtain ⟨c, -, -, hc, -⟩ := List.map_eq_cons_iff.mp h.symm
          cases hc
  | case2 u rest high hlow ih =>
      obtain ⟨c, cs, rfl, hc, hrest⟩ := List.map_eq_cons_iff.mp h.symm
      rw [List.flatMap_cons, Option.some.inj hc, unitsOf_paired (hhalf high rfl) hlow,
        ← ih (by simp) hrest.symm]
      rfl
  | case3 u rest high =>
      obtain ⟨c, -, -, hc, -⟩ := List.map_eq_cons_iff.mp h.symm
      cases hc
  | case4 u rest hhigh ih =>
      refine ih ?_ h
      rintro _ ⟨⟩
      exact hhigh
  | case5 u rest hhigh ih =>
      obtain ⟨c, cs, rfl, hc, hrest⟩ := List.map_eq_cons_iff.mp h.symm
      rw [List.flatMap_cons, unitsOf_single (eq_false_of_ne_true hhigh) hc.symm,
        ← ih (by simp) hrest.symm]
      rfl

/-- A second half stands behind every first half, and nowhere else.  The
zero at either end is no half. -/
def IsPaired (us : List UInt16) : Prop :=
  (0 :: (us ++ [0])).IsChain fun u v => isHigh u = isLow v

instance (us : List UInt16) : Decidable (IsPaired us) :=
  inferInstanceAs (Decidable (List.IsChain _ _))

/-- Of the unit in front it only matters whether it is a first half. -/
theorem all_isSome_scanFrom {half : Option UInt16} {before : UInt16} {us : List UInt16}
    (h : isHigh before = half.isSome) :
    (scanFrom half us).all Option.isSome = true
      ↔ (before :: (us ++ [0])).IsChain fun u v => isHigh u = isLow v := by
  fun_induction scanFrom half us generalizing before with
  | case1 half =>
      rw [List.nil_append, List.isChain_cons_cons, h]
      cases half <;> simp [isLow]
  | case2 u rest high hlow ih =>
      rw [List.cons_append, List.isChain_cons_cons, ← ih (isHigh_of_isLow hlow), h, hlow]
      simp
  | case3 u rest high hlow =>
      rw [List.cons_append, List.isChain_cons_cons, h]
      simp [hlow]
  | case4 u rest hhigh ih =>
      rw [List.cons_append, List.isChain_cons_cons, ← ih hhigh, h, isLow_of_isHigh hhigh]
      simp
  | case5 u rest hhigh ih =>
      rw [List.cons_append, List.isChain_cons_cons, ← ih (eq_false_of_ne_true hhigh), h]
      simp [single]

/-! ## Texts -/

theorem eq_encode_iff {bytes : Bytes} {text : String} (heven : bytes.length % 2 = 0) :
    bytes = encode text ↔ Bytes.words16 bytes = units text := by
  constructor
  · rintro rfl
    exact words16_encode text
  · intro h
    rw [encode, ← h, Bytes.flatMap_ofWord16_words16 heven]

theorem eq_map_some_of_all {found : List (Option Char)} (h : found.all Option.isSome = true) :
    found = (found.map fun c => c.getD '\uFFFD').map some := by
  rw [List.map_map]
  calc found = found.map id := (List.map_id found).symm
    _ = found.map (some ∘ fun c => c.getD '\uFFFD') := by
      refine List.map_congr_left fun c hc => ?_
      obtain ⟨c, rfl⟩ := Option.isSome_iff_exists.mp (List.all_eq_true.mp h c hc)
      rfl

/-- Of the bytes, reading sees their words only. -/
theorem decode_eq_iff {bytes : Bytes} {text : String} :
    decode bytes = ⟨text, true⟩ ↔ Bytes.words16 bytes = units text := by
  constructor
  · intro h
    have hvalid : (scan (Bytes.words16 bytes)).all Option.isSome = true :=
      congrArg Reading.valid h
    have htext : String.ofList ((scan (Bytes.words16 bytes)).map fun c => c.getD '\uFFFD')
        = text := congrArg Reading.text h
    have hscan : scan (Bytes.words16 bytes) = text.toList.map some := by
      rw [← htext, String.toList_ofList]
      exact eq_map_some_of_all hvalid
    exact append_eq_flatMap_unitsOf (by simp) hscan
  · intro h
    rw [← decode_encode text, decode, decode, words16_encode, h]

theorem valid_decode_iff {bytes : Bytes} :
    (decode bytes).valid = true ↔ IsPaired (Bytes.words16 bytes) :=
  all_isSome_scanFrom rfl

/-- Every text reads back.  Bytes of an even number are valid exactly if a
text is written as them, and it is this text that they read as; that is so
exactly if no surrogate in them stands alone. -/
theorem decode_encode_and_valid_iff :
    (∀ text, decode (encode text) = ⟨text, true⟩) ∧
      ∀ bytes : Bytes, bytes.length % 2 = 0 →
        ((decode bytes).valid = true ↔ ∃ text, bytes = encode text) ∧
        (∀ text, bytes = encode text ↔ decode bytes = ⟨text, true⟩) ∧
        ((decode bytes).valid = true ↔ IsPaired (Bytes.words16 bytes)) := by
  refine ⟨decode_encode, ?_⟩
  intro bytes heven
  have hspells : ∀ text, bytes = encode text ↔ decode bytes = ⟨text, true⟩ := by
    intro text
    rw [eq_encode_iff heven, decode_eq_iff]
  refine ⟨?_, hspells, valid_decode_iff⟩
  constructor
  · intro hvalid
    exact ⟨(decode bytes).text, (hspells _).mpr (by rw [← hvalid])⟩
  · rintro ⟨text, htext⟩
    rw [(hspells text).mp htext]

/-- A character of the basic plane and one outside of it. -/
def mixedPlanes : Bytes := [0x00, 0x61, 0xD8, 0x3C, 0xDF, 0x0D]

/-- The halves of the second character in the wrong order. -/
def swappedHalves : Bytes := [0x00, 0x61, 0xDF, 0x0D, 0xD8, 0x3C]

theorem decode_encode_and_valid_iff_swappedHalves :
    mixedPlanes.length % 2 = 0 ∧ swappedHalves.length % 2 = 0 ∧
      (decode mixedPlanes).valid = true ∧ (∃ text, mixedPlanes = encode text) ∧
      decode mixedPlanes = ⟨"a🌍", true⟩ ∧
      ¬ (decode swappedHalves).valid = true ∧ ¬ ∃ text, swappedHalves = encode text := by
  obtain ⟨-, hread⟩ := decode_encode_and_valid_iff
  obtain ⟨hmixed, hspells, hpaired⟩ := hread mixedPlanes (by decide)
  obtain ⟨hswapped, -, hunpaired⟩ := hread swappedHalves (by decide)
  have hvalid : (decode mixedPlanes).valid = true := hpaired.mpr (by decide)
  have hinvalid : ¬ (decode swappedHalves).valid = true := fun h =>
    absurd (hunpaired.mp h) (by decide)
  refine ⟨by decide, by decide, hvalid, hmixed.mp hvalid, ?_, hinvalid, ?_⟩
  · exact (hspells _).mp (by decide)
  · exact fun h => hinvalid (hswapped.mpr h)

end Utf16

end MessageCatalog
