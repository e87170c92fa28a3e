/-
# `MessageCatalog.Proofs.RecordReading` — a written record reads back

A record is written field by field, and the tag behind the last field ends
it, so it is read whole wherever it stands:

    writeRecord key translations level = .ok bytes  →
      Record.read (front ++ bytes ++ rest) front.length
        = .ok (writtenRecord key translations level)

where `writtenRecord` has the parts of the key that the level reaches and no
others.  The slots of a file point at the records in this way: `writeSlots`
runs over the records with the sum of their sizes, and every sum it writes
is the place where the next record begins.
-/
import MessageCatalog.Compiled.Encode
import MessageCatalog.Proofs.Utf16

namespace MessageCatalog.Compiled

/-! ## Fields -/

theorem FieldTag.ofByte?_byte (tag : FieldTag) : FieldTag.ofByte? tag.byte = some tag := by
  cases tag <;> rfl

/-- The fields of a record, each with its tag. -/
def writtenFields (key : Key) (translations : List String) (level : Level) :
    List (FieldTag × Bytes) :=
  (translations.map fun t => (FieldTag.translation, Utf16.encode t)) ++ key.writtenParts level

theorem writeRecord_eq_ok {key : Key} {translations : List String} {level : Level} {bytes : Bytes} :
    writeRecord key translations level = .ok bytes ↔
      ∃ written, List.Forall₂ (fun f b => tagged f.1.byte f.2 = .ok b)
          (writtenFields key translations level) written
        ∧ written.flatten ++ [FieldTag.stop.byte] = bytes := by
  exact bind_eq_ok.trans (exists_congr fun _ => and_congr mapM_eq_ok pure_eq_ok)

/-- What a written field is read as. -/
def readField : FieldTag × Bytes → Field
  | (.translation, payload) => .translation (Utf16.decode payload)
  | (.source, payload) => .source payload
  | (.context, payload) => .context payload
  | (.comment, payload) => .comment payload
  | _ => .unused

/-- The fields that records are written with: texts, and parts of keys. -/
inductive IsRecordField : FieldTag × Bytes → Prop
  | translation (text : String) : IsRecordField (.translation, Utf16.encode text)
  | source (payload : Bytes) : IsRecordField (.source, payload)
  | context (payload : Bytes) : IsRecordField (.context, payload)
  | comment (payload : Bytes) : IsRecordField (.comment, payload)

theorem isRecordField_of_mem {key : Key} {translations : List String} {level : Level} :
    ∀ f ∈ writtenFields key translations level, IsRecordField f := by
  intro f hf
  rcases List.mem_append.mp hf with htext | hpart
  · obtain ⟨text, -, rfl⟩ := List.mem_map.mp htext
    exact .translation text
  · cases level with
    | nothing | hash => cases hpart
    | context =>
        obtain rfl := List.mem_singleton.mp hpart
        exact .context _
    | source =>
        rcases List.mem_cons.mp hpart with rfl | hpart
        · exact .source _
        · obtain rfl := List.mem_singleton.mp hpart
          exact .context _
    | comment =>
        rcases List.mem_cons.mp hpart with rfl | hpart
        · exact .comment _
        · rcases List.mem_cons.mp hpart with rfl | hpart
          · exact .source _
          · obtain rfl := List.mem_singleton.mp hpart
            exact .context _

theorem countedField_of_counted {payload bytes : Bytes} (h : counted payload = .ok bytes)
    (make : Bytes → Field) (offset : Nat) (rest : Bytes) :
    countedField offset make (bytes ++ rest)
      = .ok (.field (make payload) (bytes.length + 1) rest) := by
  rw [countedField, takeCounted_of_counted h, length_of_counted h]
  simp only [Except.ok.injEq, Step.field.injEq, true_and, and_true]
  omega

/-- A written field is read as one step, with its size. -/
theorem readStep_written {f : FieldTag × Bytes} (hf : IsRecordField f) {bytes : Bytes}
    (h : tagged f.1.byte f.2 = .ok bytes) (offset : Nat) (rest : Bytes) :
    readStep offset (bytes ++ rest) = .ok (.field (readField f) bytes.length rest) := by
  obtain ⟨body, hbody, rfl⟩ := tagged_eq_ok.mp h
  rw [List.cons_append, readStep, FieldTag.ofByte?_byte, List.length_cons]
  cases hf with
  | translation text =>
      simp only [readText16_of_counted hbody, readField, Utf16.decode_encode, Nat.add_comm]
  | source payload => exact countedField_of_counted hbody .source offset rest
  | context payload => exact countedField_of_counted hbody .context offset rest
  | comment payload => exact countedField_of_counted hbody .comment offset rest

theorem readFields_stop (offset : Nat) (rest : Bytes) :
    readFields offset (FieldTag.stop.byte :: rest) = .ok [] := by
  have hstep : readStep offset (FieldTag.stop.byte :: rest) = .ok .stop := by
    rw [readStep, FieldTag.ofByte?_byte]
  rw [readFields]
  split
  · next h => rw [hstep] at h; cases h
  · rfl
  · next h => rw [hstep] at h; cases h

theorem readFields_cons {offset size : Nat} {bytes rest : Bytes} {field : Field}
    {fields : List Field} (hstep : readStep offset bytes = .ok (.field field size rest))
    (hfields : readFields (offset + size) rest = .ok fields) :
    readFields offset bytes = .ok (field :: fields) := by
  rw [readFields]
  split
  · next h => rw [hstep] at h; cases h
  · next h => rw [hstep] at h; cases h
  · next h =>
    rw [hstep] at h
    cases h
    rw [hfields]

/-- All fields of a record are read, up to its end. -/
theorem readFields_written {fields : List (FieldTag × Bytes)} {written : List Bytes}
    (h : List.Forall₂ (fun f b => tagged f.1.byte f.2 = .ok b) fields written)
    (hfields : ∀ f ∈ fields, IsRecordField f) (rest : Bytes) :
    ∀ offset, readFields offset (written.flatten ++ FieldTag.stop.byte :: rest)
      = .ok (fields.map readField) := by
  induction h with
  | nil => exact fun offset => readFields_stop offset rest
  | @cons f b fields written hf _ ih =>
      intro offset
      rw [List.flatten_cons, List.append_assoc]
      exact readFields_cons (readStep_written (hfields f List.mem_cons_self) hf offset _)
        (ih (fun g hg => hfields g (List.mem_cons_of_mem _ hg)) _)

/-! ## Records -/

/-- What a record holds that was written at a level. -/
def writtenRecord (key : Key) (translations : List String) (level : Level) : Record :=
  { translations := translations.map fun t => ⟨t, true⟩
    context := if Level.context.rank ≤ level.rank then some (Utf8.encode key.context) else none
    source := if Level.source.rank ≤ level.rank then some (Utf8.encode key.source) else none
    comment := if Level.comment.rank ≤ level.rank then some (Utf8.encode key.comment) else none }

theorem ofFields_writtenFields (key : Key) (translations : List String) (level : Level) :
    Record.ofFields ((writtenFields key translations level).map readField)
      = writtenRecord key translations level := by
  have htexts : ((translations.map fun t => (FieldTag.translation, Utf16.encode t)).map readField)
      = translations.map fun t => Field.translation ⟨t, true⟩ := by
    simp [readField, Utf16.decode_encode, Function.comp_def]
  have hkeyless (part : Field → Option Bytes) (hpart : ∀ r, part (.translation r) = none) :
      (translations.map fun t => Field.translation ⟨t, true⟩).filterMap part = [] := by
    simp [List.filterMap_map, hpart]
  have htranslations : (translations.map fun t => Field.translation ⟨t, true⟩).filterMap
      Field.translation? = translations.map fun t => ⟨t, true⟩ := by
    simp [List.filterMap_map, Function.comp_def, Field.translation?]
  rw [writtenFields, List.map_append, htexts]
  simp only [Record.ofFields, List.filterMap_append, htranslations,
    hkeyless Field.context? fun _ => rfl, hkeyless Field.source? fun _ => rfl,
    hkeyless Field.comment? fun _ => rfl, List.nil_append]
  cases level <;> exact congrArg (Record.mk · _ _ _) (List.append_nil _)

/-- A record is read whole, whatever stands around it. -/
theorem read_writeRecord {key : Key} {translations : List String} {level : Level} {bytes : Bytes}
    (h : writeRecord key translations level = .ok bytes) (front rest : Bytes) :
    Record.read (front ++ bytes ++ rest) front.length
      = .ok (writtenRecord key translations level) := by
  obtain ⟨written, hwritten, rfl⟩ := writeRecord_eq_ok.mp h
  have hfields := readFields_written hwritten isRecordField_of_mem rest front.length
  have hdrop : (front ++ (written.flatten ++ [FieldTag.stop.byte]) ++ rest).drop front.length
      = written.flatten ++ FieldTag.stop.byte :: rest := by
    rw [List.append_assoc, List.drop_left, List.append_assoc, List.singleton_append]
  rw [Record.read, hdrop]
  split
  · next hnil => exact absurd hnil (by simp)
  · rw [hfields]
    exact congrArg Except.ok (ofFields_writtenFields key translations level)

/-! ## Levels -/

theorem length_strippedLevels : ∀ (previous : Level) (keys : List Key),
    (strippedLevels previous keys).length = keys.length
  | _, [] => rfl
  | _, [_] => rfl
  | _, _ :: following :: rest =>
      congrArg Nat.succ (length_strippedLevels _ (following :: rest))

theorem length_levels (mode : SaveMode) (keys : List Key) :
    (levels mode keys).length = keys.length := by
  cases mode with
  | everything => exact List.length_map _
  | stripped => exact length_strippedLevels _ keys

/-- The records, each with the level that it is written at. -/
def levelled (mode : SaveMode) (records : Records) : List ((Key × List String) × Level) :=
  records.zip (levels mode (records.map Prod.fst))

theorem map_fst_levelled (mode : SaveMode) (records : Records) :
    (levelled mode records).map Prod.fst = records :=
  List.map_fst_zip (Nat.le_of_eq (by rw [length_levels, List.length_map]))

theorem mem_of_mem_levelled {mode : SaveMode} {records : Records}
    {item : (Key × List String) × Level} (h : item ∈ levelled mode records) : item.1 ∈ records :=
  map_fst_levelled mode records ▸ List.mem_map_of_mem h

theorem exists_mem_levelled (mode : SaveMode) {records : Records} {record : Key × List String}
    (h : record ∈ records) : ∃ level, (record, level) ∈ levelled mode records := by
  rw [← map_fst_levelled mode records] at h
  obtain ⟨⟨_, level⟩, hitem, rfl⟩ := List.mem_map.mp h
  exact ⟨level, hitem⟩

theorem exists_getElem?_levelled (mode : SaveMode) {records : Records} {i : Nat}
    {record : Key × List String} (h : records[i]? = some record) :
    ∃ level, (levelled mode records)[i]? = some (record, level) := by
  rw [← map_fst_levelled mode records, List.getElem?_map, Option.map_eq_some_iff] at h
  obtain ⟨⟨_, level⟩, hlevel, rfl⟩ := h
  exact ⟨level, hlevel⟩

theorem map_levelled {α : Type} (f : Key × List String → α) (mode : SaveMode)
    (records : Records) : (levelled mode records).map (fun item => f item.1) = records.map f := by
  conv_rhs => rw [← map_fst_levelled mode records, List.map_map]
  rfl

theorem levelled_everything (records : Records) :
    levelled .everything records = records.map fun record => (record, Level.comment) := by
  induction records with
  | nil => rfl
  | cons record records ih => exact congrArg (List.cons (record, Level.comment)) ih

theorem writeRecords_eq_ok {mode : SaveMode} {records : Records} {written : List Bytes} :
    writeRecords mode records = .ok written ↔
      List.Forall₂ (fun item bytes => writeRecord item.1.1 item.1.2 item.2 = .ok bytes)
        (levelled mode records) written :=
  mapM_eq_ok

/-! ## Slots -/

theorem writeSlots_cons_eq_ok {offset : Nat} {key : Key} {bytes : Bytes}
    {rest : List (Key × Bytes)} {slots : List Bytes} :
    writeSlots offset ((key, bytes) :: rest) = .ok slots ↔
      ∃ tail, offset < 4294967296 ∧ writeSlots (offset + bytes.length) rest = .ok tail
        ∧ slots = (Bytes.ofWord32 key.hash ++ Bytes.ofWord32 (UInt32.ofNat offset)) :: tail := by
  rw [writeSlots, bind_eq_ok]
  constructor
  · rintro ⟨word, hword, h⟩
    obtain ⟨tail, htail, h⟩ := bind_eq_ok.mp h
    obtain ⟨hsmall, rfl⟩ := wireWord_eq_ok.mp hword
    exact ⟨tail, hsmall, htail, (pure_eq_ok.mp h).symm⟩
  · rintro ⟨tail, hsmall, htail, rfl⟩
    exact ⟨_, wireWord_eq_ok.mpr ⟨hsmall, rfl⟩, bind_eq_ok.mpr ⟨tail, htail, rfl⟩⟩

/-- A slot leads to a record: it has the hash of the key, and at its offset
the record is read as it was written. -/
def LeadsTo (records : Bytes) (item : (Key × List String) × Level) (slot : UInt32 × UInt32) :
    Prop :=
  slot.1 = item.1.1.hash
    ∧ Record.read records slot.2.toNat = .ok (writtenRecord item.1.1 item.1.2 item.2)

/-- Every slot leads to its record.  `front` is what is written of the
records already. -/
theorem leadsTo_slots {items : List ((Key × List String) × Level)} {written : List Bytes}
    (h : List.Forall₂ (fun item bytes => writeRecord item.1.1 item.1.2 item.2 = .ok bytes)
      items written) :
    ∀ (front : Bytes) {slots : List Bytes},
      writeSlots front.length ((items.map fun item => item.1.1).zip written) = .ok slots →
        List.Forall₂ (LeadsTo (front ++ written.flatten)) items
          (Bytes.wordPairs32 slots.flatten) := by
  induction h with
  | nil =>
      intro front slots hslots
      obtain rfl : [] = slots := Except.ok.inj hslots
      exact .nil
  | @cons item bytes items written hitem _ ih =>
      intro front slots hslots
      obtain ⟨tail, hsmall, htail, rfl⟩ := writeSlots_cons_eq_ok.mp hslots
      rw [← List.length_append] at htail
      have hrest := ih (front ++ bytes) htail
      rw [List.flatten_cons, ← List.append_assoc, List.flatten_cons, Bytes.wordPairs32_append]
      refine .cons ⟨rfl, ?_⟩ hrest
      show Record.read _ (UInt32.ofNat front.length).toNat = _
      rw [UInt32.toNat_ofNat_of_lt' hsmall]
      exact read_writeRecord hitem front written.flatten

end MessageCatalog.Compiled
