/-
# `MessageCatalog.Proofs.LookupRun` — a look-up as a run over the records

A look-up finds the slots with the hash of its key, reads the records they
lead to and takes the first that fits.  On the file of a compiled catalog
this comes down to a run over the records themselves, as they were before
they were written:

    file.lookupExactly key form
      = (levelled mode records).findSome? (answer key form)

A record answers a key if the hashes are the same and so are the parts that
its level reaches (`Answers`).  What is left for the modules on the two save
modes is which records come first.
-/
import MessageCatalog.Compiled.Lookup
import MessageCatalog.Proofs.FileReading
import MessageCatalog.Proofs.RecordSet

namespace MessageCatalog.Compiled

/-! ## Slots of a hash -/

/-- In a list that is sorted by a number, those with a given number stand
together. -/
theorem takeWhile_dropWhile_sorted {α : Type} {number : α → UInt32} {items : List α}
    (h : items.Pairwise fun a b => number a ≤ number b) (wanted : UInt32) :
    (items.dropWhile fun a => number a < wanted).takeWhile (fun a => number a == wanted)
      = items.filter fun a => number a == wanted := by
  induction items with
  | nil => rfl
  | cons a items ih =>
      obtain ⟨hle, hitems⟩ := List.pairwise_cons.mp h
      have ih := ih hitems
      by_cases hlt : number a < wanted
      · have hne : ¬ (number a == wanted) = true := fun he =>
          UInt32.lt_irrefl _ (beq_iff_eq.mp he ▸ hlt)
        rw [List.dropWhile_cons_of_pos (by simpa using hlt), List.filter_cons, if_neg hne, ih]
      rw [List.dropWhile_cons_of_neg (by simpa using hlt)]
      by_cases heq : number a = wanted
      · -- all that follow have the number or a greater one, so none is dropped
        have hnone : items.dropWhile (fun b => number b < wanted) = items := by
          cases items with
          | nil => rfl
          | cons b rest =>
              refine List.dropWhile_cons_of_neg ?_
              have hb := hle b List.mem_cons_self
              rw [heq] at hb
              simpa using hb
        rw [hnone] at ih
        rw [List.takeWhile_cons_of_pos (by simpa using heq),
          List.filter_cons_of_pos (by simpa using heq), ih]
      · have hnone : ∀ b ∈ a :: items, ¬ (number b == wanted) = true := by
          intro b hb he
          have he := beq_iff_eq.mp he
          rcases List.mem_cons.mp hb with rfl | hb
          · exact heq he
          · have hab := hle b hb
            rw [he] at hab
            rcases UInt32.lt_or_eq_of_le hab with hlt' | heq'
            · exact hlt hlt'
            · exact heq heq'
        rw [List.takeWhile_cons_of_neg (by simpa using heq), List.filter_eq_nil_iff.mpr hnone]

theorem findSome?_filter {α β : Type} (p : α → Bool) (f : α → Option β) (items : List α) :
    (items.filter p).findSome? f = items.findSome? fun a => if p a then f a else none := by
  induction items with
  | nil => rfl
  | cons a items ih =>
      rw [List.filter_cons, List.findSome?_cons]
      split
      · rw [List.findSome?_cons, ih]
      · exact ih

/-! ## Answers -/

/-- A record that was written at a level is taken for a key. -/
def Answers (stored : Key) (level : Level) (key : Key) : Prop :=
  stored.hash = key.hash
    ∧ (Level.context.rank ≤ level.rank → stored.context = key.context)
    ∧ (Level.source.rank ≤ level.rank → stored.source = key.source)
    ∧ (Level.comment.rank ≤ level.rank → stored.comment = "" ∨ stored.comment = key.comment)

instance (stored : Key) (level : Level) (key : Key) : Decidable (Answers stored level key) :=
  inferInstanceAs (Decidable (_ ∧ _ ∧ _ ∧ _))

theorem answers_self (key : Key) (level : Level) : Answers key level key :=
  ⟨rfl, fun _ => rfl, fun _ => rfl, fun _ => .inr rfl⟩

theorem encode_eq_nil {text : String} : Utf8.encode text = [] ↔ text = "" :=
  Utf8.encode_inj (t := "")

theorem fits_writtenRecord {stored key : Key} (translations : List String) {level : Level} :
    stored.hash = key.hash ∧ (writtenRecord stored translations level).fits key = true
      ↔ Answers stored level key := by
  cases level <;>
    simp [Record.fits, writtenRecord, Answers, Level.rank, Utf8.encode_inj, encode_eq_nil,
      and_assoc]

/-- The translation that a record has for a key. -/
def answer (key : Key) (form : Nat) (item : (Key × List String) × Level) : Option String :=
  if Answers item.1.1 item.2 key then item.1.2[form]? else none

theorem map_fst_of_leadsTo {bytes : Bytes} {items : List ((Key × List String) × Level)}
    {slots : List (UInt32 × UInt32)} (h : List.Forall₂ (LeadsTo bytes) items slots) :
    slots.map Prod.fst = items.map fun item => item.1.1.hash := by
  induction h with
  | nil => rfl
  | cons hitem _ ih => rw [List.map_cons, List.map_cons, hitem.1, ih]

theorem translationAt_of_leadsTo {file : File} {item : (Key × List String) × Level}
    {slot : UInt32 × UInt32} (h : LeadsTo file.records item slot) (key : Key) (form : Nat) :
    (if slot.1 == key.hash then file.translationAt key form slot.2 else none)
      = answer key form item := by
  obtain ⟨hhash, hread⟩ := h
  rw [answer, hhash, File.translationAt, hread]
  simp only [beq_iff_eq, ← fits_writtenRecord item.1.2]
  by_cases hkey : item.1.1.hash = key.hash
  · simp only [hkey, if_true, true_and, writtenRecord, List.getElem?_map, Option.map_map,
      Function.comp_def, Option.map_id']
  · simp only [hkey, if_false, false_and]

/-! ## The run -/

section

variable {options : Options} {catalog : Catalog} {file : File}

theorem IsCompiled.pairwise_slots (h : IsCompiled options catalog file) :
    file.slots.Pairwise fun a b => a.1 ≤ b.1 := by
  have hhashes : file.slots.map Prod.fst
      = (sortedRecords options catalog).map fun record => record.1.hash := by
    rw [map_fst_of_leadsTo h.slots]
    exact map_levelled (fun record => record.1.hash) _ _
  have hsorted : (file.slots.map Prod.fst).Pairwise (· ≤ ·) := by
    rw [hhashes, List.pairwise_map]
    exact (pairwise_sortedRecords options catalog).imp fun hlt =>
      Key.hash_le_of_isLE (by rw [hlt]; rfl)
  exact List.pairwise_map.mp hsorted

/-- A look-up takes the first answer of the records in their order. -/
theorem IsCompiled.lookupExactly (h : IsCompiled options catalog file) (key : Key) (form : Nat) :
    file.lookupExactly key form
      = (levelled options.saveMode (sortedRecords options catalog)).findSome?
          (answer key form) := by
  have hrun : ∀ {items : List ((Key × List String) × Level)} {slots : List (UInt32 × UInt32)},
      List.Forall₂ (LeadsTo file.records) items slots →
        (slots.findSome? fun slot =>
          if slot.1 == key.hash then file.translationAt key form slot.2 else none)
          = items.findSome? (answer key form) := by
    intro items slots h
    induction h with
    | nil => rfl
    | cons hitem _ ih =>
        rw [List.findSome?_cons, List.findSome?_cons, translationAt_of_leadsTo hitem, ih]
  rw [← hrun h.slots, File.lookupExactly, File.offsetsOf,
    takeWhile_dropWhile_sorted h.pairwise_slots, List.findSome?_map, findSome?_filter]
  rfl

/-- The contexts of all records are covered. -/
theorem IsCompiled.coversContext (h : IsCompiled options catalog file)
    {record : Key × List String} (hrecord : record ∈ sortedRecords options catalog) :
    file.coversContext record.1.context = true := by
  rw [File.coversContext, h.contexts, keptContexts]
  split
  · rfl
  · cases hbuild : ContextTable.build
        (distinct ((sortedRecords options catalog).map fun r => Utf8.encode r.1.context)) with
    | error remark =>
        simp only [hbuild]
        rfl
    | ok block =>
        simp only [hbuild, Option.all_some]
        rw [ContextTable.contains_tableOf hbuild]
        by_cases hempty : Utf8.encode record.1.context = []
        · exact .inl hempty
        · exact .inr ⟨_, mem_distinct.mpr (List.mem_map.mpr ⟨record, hrecord, rfl⟩), hempty, rfl⟩

end

end MessageCatalog.Compiled
