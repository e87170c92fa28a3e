/-
# `MessageCatalog.Proofs.RecordEnds` — a record tells where it ends

A block of records has no separators, and a slot leads to the first byte of a
record only.  Where the record ends is for its own bytes to say.  Reading takes
all of them and none behind them:

    writeRecord key translations level = .ok bytes  →
      reading at bytes ++ rest gives the record, whatever `rest` is
      reading at less than all of `bytes` finds the record cut off

The first was shown in `MessageCatalog.Proofs.RecordReading`.  The second goes
field by field: a field that is cut off is told from its length, and a cut
between two fields, or in front of the end, leaves a record without an end.
-/
import MessageCatalog.Proofs.RecordReading
import MessageCatalog.Proofs.TextFaults

namespace MessageCatalog.Compiled

/-! ## Fields that are cut off -/

/-- Of counted bytes that are cut off, not even the length can be read, or too
little follows it. -/
theorem takeWord32_of_cut {payload bytes short : Bytes} (h : counted payload = .ok bytes)
    (hcut : short <+: bytes) (hne : short ≠ bytes) :
    Bytes.takeWord32 short = none
      ∨ ∃ rest, Bytes.takeWord32 short = some (UInt32.ofNat payload.length, rest)
          ∧ Bytes.take? payload.length rest = none := by
  obtain ⟨tail, htail⟩ := hcut
  obtain ⟨-, hbytes⟩ := counted_eq_ok.mp h
  cases hword : Bytes.takeWord32 short with
  | none => exact .inl rfl
  | some found =>
      obtain ⟨word, rest⟩ := found
      refine .inr ⟨rest, ?_⟩
      have hshort := Bytes.eq_append_of_takeWord32 hword
      have hread := Bytes.takeWord32_ofWord32 word (rest ++ tail)
      rw [← List.append_assoc, ← hshort, htail, hbytes, Bytes.takeWord32_ofWord32] at hread
      obtain ⟨rfl, hpayload⟩ := Prod.mk.inj (Option.some.inj hread)
      refine ⟨rfl, if_neg ?_⟩
      have htail : tail ≠ [] := by
        rintro rfl
        rw [List.append_nil] at htail
        exact hne htail
      have hpos := List.length_pos_iff.mpr htail
      have hlength := congrArg List.length hpayload
      rw [List.length_append] at hlength
      rw [List.length_take]
      omega

theorem countedField_of_cut {payload bytes short : Bytes} (h : counted payload = .ok bytes)
    (hcut : short <+: bytes) (hne : short ≠ bytes) (make : Bytes → Field) (offset : Nat) :
    countedField offset make short = .error (.truncatedRecord offset) := by
  obtain ⟨hlength, -⟩ := counted_eq_ok.mp h
  unfold countedField Bytes.takeCounted
  rcases takeWord32_of_cut h hcut hne with hword | ⟨rest, hword, hrest⟩
  · rw [hword]
  · simp only [hword, UInt32.toNat_ofNat_of_lt' hlength, hrest]

theorem readText16_of_cut {text : String} {bytes short : Bytes}
    (h : counted (Utf16.encode text) = .ok bytes) (hcut : short <+: bytes) (hne : short ≠ bytes)
    (offset : Nat) : readText16 offset short = .error (.truncatedRecord offset) := by
  obtain ⟨hlength, -⟩ := counted_eq_ok.mp h
  have heven := Utf16.even_length_encode text
  have hnat := UInt32.toNat_ofNat_of_lt' hlength
  have hword := ofNat_length_ne_noText h
  unfold readText16
  rcases takeWord32_of_cut h hcut hne with hnone | ⟨rest, hsome, hrest⟩
  · rw [hnone]
  · simp only [hsome, if_neg hword, hnat, heven, ne_eq, not_true_eq_false, if_false, hrest]

/-- A field of which a part is missing is told as cut off. -/
theorem readStep_of_cut {f : FieldTag × Bytes} (hf : IsRecordField f) {bytes short : Bytes}
    (h : tagged f.1.byte f.2 = .ok bytes) (hcut : short <+: bytes) (hne : short ≠ bytes)
    (offset : Nat) : readStep offset short = .error (.truncatedRecord offset) := by
  obtain ⟨body, hbody, rfl⟩ := tagged_eq_ok.mp h
  cases short with
  | nil => rfl
  | cons tag short =>
      obtain ⟨rfl, hbodyCut⟩ := List.cons_prefix_cons.mp hcut
      have hbodyNe : short ≠ body := fun heq => hne (heq ▸ rfl)
      rw [readStep, FieldTag.ofByte?_byte]
      cases hf with
      | translation text => simp only [readText16_of_cut hbody hbodyCut hbodyNe]
      | source payload => exact countedField_of_cut hbody hbodyCut hbodyNe .source offset
      | context payload => exact countedField_of_cut hbody hbodyCut hbodyNe .context offset
      | comment payload => exact countedField_of_cut hbody hbodyCut hbodyNe .comment offset

/-! ## Records that are cut off -/

theorem readFields_cons_of_error {offset size : Nat} {bytes rest : Bytes} {field : Field}
    {e : Error} (hstep : readStep offset bytes = .ok (.field field size rest))
    (hfields : readFields (offset + size) rest = .error e) :
    readFields offset bytes = .error e := by
  rw [readFields]
  split
  · next h => rw [hstep] at h; cases h
  · next h => rw [hstep] at h; cases h
  · next h =>
    rw [hstep] at h
    cases h
    rw [hfields]

/-- The fields of a record that is cut off cannot be read to its end. -/
theorem readFields_of_cut {fields : List (FieldTag × Bytes)} {written : List Bytes}
    (h : List.Forall₂ (fun f b => tagged f.1.byte f.2 = .ok b) fields written)
    (hfields : ∀ f ∈ fields, IsRecordField f) :
    ∀ {short : Bytes}, short <+: written.flatten ++ [FieldTag.stop.byte] →
      short ≠ written.flatten ++ [FieldTag.stop.byte] →
        ∀ offset, ∃ fault, readFields offset short = .error (.truncatedRecord fault) := by
  induction h with
  | nil =>
      intro short hcut hne offset
      rcases List.prefix_cons_iff.mp hcut with rfl | ⟨tail, rfl, htail⟩
      · exact ⟨offset, readFields_of_error rfl⟩
      · exact absurd (congrArg _ (List.prefix_nil.mp htail)) hne
  | @cons f b fields written hf _ ih =>
      intro short hcut hne offset
      rw [List.flatten_cons, List.append_assoc] at hcut hne
      have hfield := hfields f List.mem_cons_self
      by_cases hwhole : b <+: short
      · -- the first field is whole, so the cut is in what follows it
        obtain ⟨rest, rfl⟩ := hwhole
        obtain ⟨fault, hfault⟩ := ih (fun g hg => hfields g (List.mem_cons_of_mem _ hg))
          ((List.prefix_append_right_inj b).mp hcut) (fun heq => hne (heq ▸ rfl))
          (offset + b.length)
        exact ⟨fault, readFields_cons_of_error (readStep_written hfield hf offset rest) hfault⟩
      · have hinside : short <+: b :=
          (List.prefix_or_prefix_of_prefix hcut (List.prefix_append _ _)).resolve_right hwhole
        refine ⟨offset, readFields_of_error (readStep_of_cut hfield hf hinside ?_ offset)⟩
        rintro rfl
        exact hwhole (List.prefix_refl _)

/-- A record is read at its place with its translations, in order and none of
them ill formed, and with the parts of its key that its level asks for and no
others, whatever stands in front of it and behind it.  Without its last bytes
it cannot be read. -/
theorem read_eq_ok_and_cut {key : Key} {translations : List String} {level : Level}
    {bytes : Bytes} (h : writeRecord key translations level = .ok bytes) :
    (∀ front rest : Bytes, ∃ record,
        Record.read (front ++ bytes ++ rest) front.length = .ok record
          ∧ record.translations = translations.map (fun t => ⟨t, true⟩)
          ∧ (record.context, record.source, record.comment) = match level with
            | .nothing | .hash => (none, none, none)
            | .context => (some (Utf8.encode key.context), none, none)
            | .source => (some (Utf8.encode key.context), some (Utf8.encode key.source), none)
            | .comment => (some (Utf8.encode key.context), some (Utf8.encode key.source),
                some (Utf8.encode key.comment)))
      ∧ ∀ front short : Bytes, short ≠ [] → short <+: bytes → short ≠ bytes →
          ∃ fault, Record.read (front ++ short) front.length = .error (.truncatedRecord fault) := by
  constructor
  · intro front rest
    refine ⟨_, read_writeRecord h front rest, rfl, ?_⟩
    cases level <;> rfl
  · intro front short hnil hcut hne
    obtain ⟨written, hwritten, rfl⟩ := writeRecord_eq_ok.mp h
    obtain ⟨fault, hfault⟩ := readFields_of_cut hwritten isRecordField_of_mem hcut hne front.length
    obtain ⟨first, tail, rfl⟩ := List.exists_cons_of_ne_nil hnil
    refine ⟨fault, ?_⟩
    rw [Record.read, List.drop_left]
    show (readFields front.length (first :: tail)).map Record.ofFields = _
    rw [hfault]
    rfl

/-- A record whose second translation has the bytes of end tags, and a pair of
surrogates behind them. -/
def lookalike : Bytes :=
  [3, 0, 0, 0, 0, 3, 0, 0, 0, 6, 1, 1, 0xD8, 0x3D, 0xDE, 0, 6, 0, 0, 0, 1, 115, 7, 0, 0, 0, 1,
    67, 1]

theorem read_eq_ok_and_cut_lookalike :
    writeRecord ⟨"C", "s", "AQ"⟩ ["", "ā😀"] .source = .ok lookalike
      ∧ (∃ record, Record.read ([3, 0] ++ lookalike ++ [3, 0]) 2 = .ok record
          ∧ record.translations = [⟨"", true⟩, ⟨"ā😀", true⟩]
          ∧ (record.context, record.source, record.comment) = (some [67], some [115], none))
      ∧ ∃ fault, Record.read ([3, 0] ++ lookalike.take 11) 2 = .error (.truncatedRecord fault) := by
  have h : writeRecord ⟨"C", "s", "AQ"⟩ ["", "ā😀"] .source = .ok lookalike := by decide
  obtain ⟨hread, hcut⟩ := read_eq_ok_and_cut h
  exact ⟨h, hread [3, 0] [3, 0], hcut [3, 0] _ (by decide) (List.take_prefix 11 _) (by decide)⟩

end MessageCatalog.Compiled
