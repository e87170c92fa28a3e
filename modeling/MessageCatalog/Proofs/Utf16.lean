/-
# `MessageCatalog.Proofs.Utf16` — a text in 16-bit units reads back

No character has a code point between U+D800 and U+DFFF, so a unit in that
range can only be half of a pair, and `scan` never takes the unit of a
character of the basic plane for a half or the other way round.  Hence the
units of a character read as that character whatever follows them:

    scan (unitsOf c ++ rest) = some c :: scan rest

The bytes of a text are of an even number, which sets them apart from the
length that stands for a missing text.
-/
import MessageCatalog.Proofs.Wire

namespace MessageCatalog.Utf16

/-! ## Halves -/

theorem isHigh_iff {u : UInt16} : isHigh u = true ↔ 0xD800 ≤ u.toNat ∧ u.toNat < 0xDC00 := by
  simp only [isHigh, Bool.and_eq_true, decide_eq_true_eq]

theorem isLow_iff {u : UInt16} : isLow u = true ↔ 0xDC00 ≤ u.toNat ∧ u.toNat < 0xE000 := by
  simp only [isLow, Bool.and_eq_true, decide_eq_true_eq]

/-! ## Characters -/

/-- No character is a surrogate, and all lie within seventeen planes. -/
theorem toNat_range (c : Char) : c.toNat < 0xD800 ∨ 0xDFFF < c.toNat ∧ c.toNat < 0x110000 :=
  c.valid

theorem scan_basic {c : Char} (h : c.toNat < 0x10000) (rest : List UInt16) :
    scanFrom none (UInt16.ofNat c.toNat :: rest) = some c :: scanFrom none rest := by
  have hunit : (UInt16.ofNat c.toNat).toNat = c.toNat := UInt16.toNat_ofNat_of_lt' h
  have hrange := toNat_range c
  have hhigh : isHigh (UInt16.ofNat c.toNat) = false := by
    rw [← Bool.not_eq_true, isHigh_iff, hunit]
    omega
  have hlow : isLow (UInt16.ofNat c.toNat) = false := by
    rw [← Bool.not_eq_true, isLow_iff, hunit]
    omega
  simp only [scanFrom, hhigh, single, hlow, hunit, Char.ofNat_toNat, Bool.false_eq_true, if_false]

/-- The two halves of a character outside of the basic plane. -/
theorem scan_pair {c : Char} (h : ¬ c.toNat < 0x10000) (rest : List UInt16) :
    scanFrom none (UInt16.ofNat (0xD800 + (c.toNat - 0x10000) / 0x400)
        :: UInt16.ofNat (0xDC00 + (c.toNat - 0x10000) % 0x400) :: rest)
      = some c :: scanFrom none rest := by
  have hrange := toNat_range c
  have hfirst : (UInt16.ofNat (0xD800 + (c.toNat - 0x10000) / 0x400)).toNat
      = 0xD800 + (c.toNat - 0x10000) / 0x400 :=
    UInt16.toNat_ofNat_of_lt' (show _ < 65536 by omega)
  have hsecond : (UInt16.ofNat (0xDC00 + (c.toNat - 0x10000) % 0x400)).toNat
      = 0xDC00 + (c.toNat - 0x10000) % 0x400 :=
    UInt16.toNat_ofNat_of_lt' (show _ < 65536 by omega)
  have hhigh : isHigh (UInt16.ofNat (0xD800 + (c.toNat - 0x10000) / 0x400)) = true := by
    rw [isHigh_iff, hfirst]
    omega
  have hlow : isLow (UInt16.ofNat (0xDC00 + (c.toNat - 0x10000) % 0x400)) = true := by
    rw [isLow_iff, hsecond]
    omega
  have hpaired : paired (UInt16.ofNat (0xD800 + (c.toNat - 0x10000) / 0x400))
      (UInt16.ofNat (0xDC00 + (c.toNat - 0x10000) % 0x400)) = c := by
    rw [paired, hfirst, hsecond]
    have : 0x10000 + (0xD800 + (c.toNat - 0x10000) / 0x400 - 0xD800) * 0x400
        + (0xDC00 + (c.toNat - 0x10000) % 0x400 - 0xDC00) = c.toNat := by omega
    rw [this, Char.ofNat_toNat]
  simp only [scanFrom, hhigh, hlow, hpaired, if_true]

theorem scanFrom_unitsOf (c : Char) (rest : List UInt16) :
    scanFrom none (unitsOf c ++ rest) = some c :: scanFrom none rest := by
  unfold unitsOf
  split
  · next h => exact scan_basic h rest
  · next h => exact scan_pair h rest

/-! ## Texts -/

theorem scan_units (text : String) : scan (units text) = text.toList.map some := by
  unfold scan units
  induction text.toList with
  | nil => rfl
  | cons c cs ih => rw [List.flatMap_cons, scanFrom_unitsOf, ih, List.map_cons]

theorem words16_encode (text : String) : Bytes.words16 (encode text) = units text :=
  Bytes.words16_flatMap_ofWord16 (units text)

/-- What was written as UTF-16 reads back, and nothing in it is
unpaired. -/
theorem decode_encode (text : String) : decode (encode text) = ⟨text, true⟩ := by
  have hscan : scan (Bytes.words16 (encode text)) = text.toList.map some := by
    rw [words16_encode, scan_units]
  simp only [decode, hscan, List.map_map, List.all_map]
  congr 1
  · exact (congrArg String.ofList (List.map_id _)).trans (String.ofList_toList)
  · exact List.all_eq_true.mpr fun _ _ => rfl

/-- Readings of well-formed texts have these texts. -/
theorem map_text_readings (texts : List String) :
    (texts.map fun text => (⟨text, true⟩ : Reading)).map Reading.text = texts := by
  rw [List.map_map]
  exact List.map_id texts

theorem even_length_encode (text : String) : (encode text).length % 2 = 0 := by
  rw [encode, Bytes.length_flatMap_ofWord16]
  omega

end MessageCatalog.Utf16

namespace MessageCatalog.Compiled

/-! ## Counted texts -/

/-- The length of a text is even and so never the one that stands for a
missing text. -/
theorem ofNat_length_ne_noText {text : String} {bytes : Bytes}
    (h : counted (Utf16.encode text) = .ok bytes) :
    UInt32.ofNat (Utf16.encode text).length ≠ noText := by
  obtain ⟨hlength, -⟩ := counted_eq_ok.mp h
  have heven := Utf16.even_length_encode text
  intro hnone
  have hodd := congrArg UInt32.toNat hnone
  rw [UInt32.toNat_ofNat_of_lt' hlength, show noText.toNat = 4294967295 from rfl] at hodd
  omega

/-- A counted text reads back. -/
theorem readText16_of_counted {text : String} {bytes : Bytes}
    (h : counted (Utf16.encode text) = .ok bytes) (offset : Nat) (rest : Bytes) :
    readText16 offset (bytes ++ rest) = .ok (⟨text, true⟩, bytes.length, rest) := by
  have hsize := length_of_counted h
  have hword := ofNat_length_ne_noText h
  obtain ⟨hlength, rfl⟩ := counted_eq_ok.mp h
  have heven := Utf16.even_length_encode text
  have hnat := UInt32.toNat_ofNat_of_lt' hlength
  rw [readText16, List.append_assoc, Bytes.takeWord32_ofWord32]
  simp only [if_neg hword, hnat, heven, ne_eq, not_true_eq_false, if_false, Bytes.take?_append,
    Utf16.decode_encode, hsize]

end MessageCatalog.Compiled
