/-
# `MessageCatalog.Proofs.Interchange` — catalogs survive the interchange

A catalog is what its JSON describes:

    ofJson? (toJson catalog) = catalog

A record writes its fields under the names that its reader knows and in the
same order, so all of them are found (`fields?_record`); what is left is one
law for each kind of value.  The values written hold no numbers but
integers, hence the text of a file reads back as well, and so does the text
on a single line.
-/
import MessageCatalog.Catalog.Interchange
import MessageCatalog.Proofs.JsonReading

namespace MessageCatalog

/-! ## Maps -/

namespace TextMap

theorem place_of_above {key value : String} {entries : List (String × String)}
    (h : ∀ e ∈ entries, e.1 < key) : place key value entries = entries ++ [(key, value)] := by
  induction entries with
  | nil => rfl
  | cons head rest ih =>
      have hlt : head.1 < key := h head List.mem_cons_self
      rw [place, if_neg (String.lt_asymm hlt), if_neg (String.ne_of_lt hlt),
        ih fun e he => h e (List.mem_cons_of_mem _ he)]
      rfl

/-- Entries in ascending order are placed one behind the other. -/
theorem entries_foldl_insert (entries : List (String × String)) : ∀ map : TextMap,
    (map.entries ++ entries).Pairwise (fun a b => a.1 < b.1) →
    (entries.foldl (fun map (key, value) => map.insert key value) map).entries
      = map.entries ++ entries := by
  induction entries with
  | nil => exact fun map _ => (List.append_nil _).symm
  | cons e entries ih =>
      intro map hascending
      have habove : ∀ earlier ∈ map.entries, earlier.1 < e.1 := fun earlier hearlier =>
        (List.pairwise_append.mp hascending).2.2 earlier hearlier e List.mem_cons_self
      have hplaced : (map.insert e.1 e.2).entries = map.entries ++ [e] := place_of_above habove
      rw [List.foldl_cons, ih, hplaced, List.append_assoc, List.singleton_append]
      rw [hplaced, List.append_assoc, List.singleton_append]
      exact hascending

theorem ofList_entries (map : TextMap) : ofList map.entries = map := by
  have hentries : (ofList map.entries).entries = map.entries :=
    entries_foldl_insert map.entries {} map.ascending
  cases hread : ofList map.entries with
  | mk entries ascending =>
      rw [hread] at hentries
      cases map
      congr

end TextMap

/-! ## Values of one kind -/

namespace Json

@[simp] theorem asText?_ofText (text : String) : asText? (ofText text) = some text := rfl

@[simp] theorem asBool?_boolean (value : Bool) : asBool? (.boolean value) = some value := rfl

@[simp] theorem asInt32?_integer (value : Int32) :
    asInt32? (.integer value.toInt) = some value := by
  have hfits : -2147483648 ≤ value.toInt ∧ value.toInt ≤ 2147483647 :=
    ⟨value.le_toInt, Int.le_of_lt_add_one value.toInt_lt⟩
  rw [asInt32?, if_pos hfits, Int32.ofInt_toInt]

theorem mapM_map_of_reads {α β : Type} {read? : β → Option α} (write : α → β)
    (h : ∀ value, read? (write value) = some value) (values : List α) :
    (values.map write).mapM read? = some values := by
  induction values with
  | nil => rfl
  | cons value values ih => rw [List.map_cons, List.mapM_cons, h, ih]; rfl

@[simp] theorem asList?_map {α : Type} {item? : Json → Option α} {ofItem : α → Json}
    (h : ∀ item, item? (ofItem item) = some item) (items : List α) :
    asList? item? (.array (items.map ofItem)) = some items :=
  mapM_map_of_reads ofItem h items

@[simp] theorem asList?_ofTexts (texts : List String) :
    asList? asText? (ofTexts texts) = some texts :=
  asList?_map asText?_ofText texts

@[simp] theorem asMap?_ofMap (map : TextMap) : asMap? (ofMap map) = some map := by
  have hnamed : (map.entries.map fun e => (some e.1, ofText e.2)).mapM namedText?
      = some map.entries :=
    mapM_map_of_reads (fun e => (some e.1, ofText e.2)) (fun _ => rfl) map.entries
  rw [ofMap, record, List.map_map, asMap?]
  exact (congrArg (Option.map TextMap.ofList) hnamed).trans
    (congrArg some (TextMap.ofList_entries map))

@[simp] theorem orNull?_ofOption (file : Option Path) :
    orNull? asText? (ofOption (fun file : Path => ofText file.text) file)
      = some (file.map Path.text) := by
  cases file with
  | none => rfl
  | some file => rfl

@[simp] theorem asNamed?_state (state : EntryState) :
    asNamed? EntryState.named (ofText state.name) = some state := by
  cases state <;> decide

@[simp] theorem asNamed?_locations (kind : LocationKind) :
    asNamed? LocationKind.named (ofText kind.name) = some kind := by
  cases kind <;> decide

/-! ## Records -/

/-- A record that has all fields of its reader, in their order, is read field
by field. -/
theorem fields?_record {names : List String} {members : List (String × Json)}
    (hnames : members.map Prod.fst = names) (hnodup : names.Nodup) :
    fields? names (record members) = some members := by
  have hnamed : (members.map fun member => (some member.1, member.2)).mapM named? = some members :=
    mapM_map_of_reads (fun member => (some member.1, member.2)) (fun _ => rfl) members
  have hknown : members.filter (fun field => names.contains field.1) = members :=
    List.filter_eq_self.mpr fun field hfield =>
      List.contains_iff_mem.mpr (hnames ▸ List.mem_map_of_mem hfield)
  rw [record, fields?]
  simp only [hnamed, hknown, Option.bind_eq_bind, Option.bind_some]
  exact if_pos (hnames ▸ hnodup)

end Json

/-! ## References, entries, catalogs -/

theorem Reference.ofJson?_toJson (reference : Reference) :
    ofJson? reference.toJson = some reference := by
  have hfields : reference.toJson.fields? ["fileName", "lineNumber"]
      = some [("fileName", .ofText reference.file.text),
          ("lineNumber", .integer reference.line.toInt)] := Json.fields?_record rfl (by decide)
  unfold ofJson?
  refine Option.bind_eq_some_iff.mpr ⟨_, hfields, ?_⟩
  simp [Json.required?, List.lookup_cons]

theorem Entry.ofJson?_toJson (entry : Entry) : ofJson? entry.toJson = some entry := by
  have hfields : entry.toJson.fields? fieldNames = some entry.members :=
    Json.fields?_record rfl (by decide)
  have hfile : entry.file.map (Path.mk ∘ Path.text) = entry.file := Option.map_id_apply
  unfold ofJson?
  refine Option.bind_eq_some_iff.mpr ⟨_, hfields, ?_⟩
  simp [Json.field?, members, List.lookup_cons, Json.asList?_map Reference.ofJson?_toJson, hfile]

theorem Catalog.ofJson?_toJson (catalog : Catalog) : ofJson? catalog.toJson = some catalog := by
  have hfields : catalog.toJson.fields? fieldNames = some catalog.members :=
    Json.fields?_record rfl (by decide)
  unfold ofJson?
  refine Option.bind_eq_some_iff.mpr ⟨_, hfields, ?_⟩
  simp [Json.field?, members, List.lookup_cons, Json.asList?_map Entry.ofJson?_toJson]

/-! ## Numbers in a catalog -/

namespace Json

theorem Integral.record {members : List (String × Json)}
    (h : ∀ member ∈ members, Integral member.2) : Integral (record members) := by
  refine .object fun member hmember => ?_
  obtain ⟨named, hnamed, rfl⟩ := List.mem_map.mp hmember
  exact h named hnamed

theorem Integral.map {α : Type} {ofItem : α → Json} (h : ∀ item, Integral (ofItem item))
    (items : List α) : Integral (.array (items.map ofItem)) := by
  refine .array fun value hvalue => ?_
  obtain ⟨item, -, rfl⟩ := List.mem_map.mp hvalue
  exact h item

theorem integral_ofText (text : String) : Integral (ofText text) := .text _

theorem integral_ofTexts (texts : List String) : Integral (ofTexts texts) :=
  .map integral_ofText texts

theorem integral_ofMap (map : TextMap) : Integral (ofMap map) := by
  refine .record fun member hmember => ?_
  obtain ⟨e, -, rfl⟩ := List.mem_map.mp hmember
  exact .text _

theorem integral_ofOption {α : Type} {ofValue : α → Json} (h : ∀ value, Integral (ofValue value))
    (value : Option α) : Integral (ofOption ofValue value) := by
  cases value with
  | none => exact .null
  | some value => exact h value

end Json

open Json in
theorem Reference.integral_toJson (reference : Reference) : reference.toJson.Integral := by
  refine .record ?_
  simp [integral_ofText, Integral.integer]

open Json in
theorem Entry.integral_toJson (entry : Entry) : entry.toJson.Integral := by
  refine .record ?_
  simp [members, integral_ofText, integral_ofTexts, integral_ofMap,
    integral_ofOption, Integral.integer, Integral.boolean, Integral.map Reference.integral_toJson]

open Json in
theorem Catalog.integral_toJson (catalog : Catalog) : catalog.toJson.Integral := by
  refine .record ?_
  simp [members, integral_ofText, integral_ofTexts, integral_ofMap,
    Integral.map Entry.integral_toJson]

/-! ## Texts -/

theorem Catalog.parse?_render (catalog : Catalog) (layout : Json.Layout) {blank : List Char}
    (hblank : ∀ c ∈ blank, Json.isSpace c = true) :
    parse? (String.ofList (catalog.toJson.render layout ++ blank)) = some catalog := by
  rw [parse?, Json.parse?_render catalog.integral_toJson layout hblank]
  exact catalog.ofJson?_toJson

/-- The text of a file and the text on one line both give back the catalog
that they were written for, whatever it holds. -/
theorem Catalog.parse?_fileText_and_compact (catalog : Catalog) :
    parse? catalog.fileText = some catalog ∧ parse? catalog.toJson.compact = some catalog := by
  constructor
  · have htext : catalog.fileText = String.ofList (catalog.toJson.render (.spread 0) ++ ['\n']) :=
      String.ofList_append.symm
    rw [htext]
    exact catalog.parse?_render (.spread 0) (List.forall_mem_singleton.mpr rfl)
  · have htext : catalog.toJson.compact = String.ofList (catalog.toJson.render .compact ++ []) :=
      congrArg String.ofList (List.append_nil _).symm
    rw [htext]
    exact catalog.parse?_render .compact nofun

end MessageCatalog
