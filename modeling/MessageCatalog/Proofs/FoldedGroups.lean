/-
# `MessageCatalog.Proofs.FoldedGroups` — folding duplicates divides the entries into groups

Folding keeps the first entry of every group and has it take in the others
(`IsGroupingOf`).  What becomes of the first one (`Group.entry`) is the entry
as it was, but

    its id             is the first one that a member has
    its translations   are those of the first member that is translated

Two entries that are kept are never duplicates of each other (`Entry.Apart`).
A fold step keeps that: an entry that is taken in by its contents may bring
an id, but only one that no other survivor has, and it brings it to the only
survivor with its contents that has none.  Entries that are apart are left
alone, so folding a second time changes nothing.
-/
import Mathlib.Data.List.Pairwise
import MessageCatalog.Proofs.Folding

namespace MessageCatalog

/-! ## Groups -/

/-- An entry that is kept, and those that it takes in, in their order. -/
structure Group where
  first : Entry
  taken : List (DuplicateKind × Entry) := []

namespace Group

/-- The entries of a group, in their order. -/
def members (group : Group) : List Entry := group.first :: group.taken.map Prod.snd

/-- The entry that the translations of a group come from. -/
def donor (group : Group) : Entry := (group.members.find? Entry.isTranslated).getD group.first

/-- What becomes of the first entry of a group. -/
def entry (group : Group) : Entry :=
  { group.first with
    id := ((group.members.map Entry.id).find? fun id => !id.isEmpty).getD ""
    translations := ((group.members.find? Entry.isTranslated).getD group.first).translations }

/-- The group took in an entry for some reason. -/
def took (group : Group) (kind : DuplicateKind) : Bool := group.taken.any fun t => t.1 == kind

/-- What a duplicate has in common with what becomes of its group. -/
def Shares (group : Group) (duplicate : Entry) : DuplicateKind → Prop
  | .id => duplicate.id ≠ "" ∧ duplicate.id = group.entry.id
  | .contents => duplicate.duplicateKey = group.entry.duplicateKey

/-- The survivor that a group comes to. -/
def survivor (group : Group) : Survivor := ⟨group.entry, group.took .id, group.took .contents⟩

/-- The group with one more entry. -/
def take (group : Group) (kind : DuplicateKind) (duplicate : Entry) : Group :=
  { group with taken := group.taken ++ [(kind, duplicate)] }

theorem members_take (group : Group) (kind : DuplicateKind) (duplicate : Entry) :
    (group.take kind duplicate).members = group.members ++ [duplicate] := by
  simp [members, take]

theorem took_take (group : Group) (kind : DuplicateKind) (duplicate : Entry)
    (asked : DuplicateKind) :
    (group.take kind duplicate).took asked = (group.took asked || kind == asked) := by
  simp [took, take]

/-! ### Ids -/

theorem id_take (group : Group) (kind : DuplicateKind) (duplicate : Entry) :
    (group.take kind duplicate).entry.id
      = if group.entry.id.isEmpty then duplicate.id else group.entry.id := by
  simp only [entry, members_take, List.map_append, List.find?_append]
  rcases Option.eq_none_or_eq_some ((group.members.map Entry.id).find? fun id => !id.isEmpty) with
    hnone | ⟨id, hsome⟩
  · by_cases hempty : duplicate.id = ""
    · simp [hnone, hempty]
    · simp [hnone, hempty]
  · have hid := List.find?_some hsome
    rw [Bool.not_eq_true'] at hid
    simp [hsome, String.isEmpty_eq_false_iff.mp hid]

theorem id_entry_of_ne {group : Group} (h : group.first.id ≠ "") :
    group.entry.id = group.first.id := by
  simp [entry, members, h]

/-- An id stays what it is. -/
theorem id_take_of_ne {group : Group} (h : group.entry.id ≠ "") (kind : DuplicateKind)
    (duplicate : Entry) : (group.take kind duplicate).entry.id = group.entry.id := by
  rw [id_take, String.isEmpty_eq_false_iff.mpr h]
  rfl

theorem Shares.take {group : Group} {duplicate : Entry} {kind : DuplicateKind}
    (h : group.Shares duplicate kind) (kind' : DuplicateKind) (other : Entry) :
    (group.take kind' other).Shares duplicate kind := by
  cases kind with
  | id =>
      obtain ⟨hne, hid⟩ := h
      refine ⟨hne, ?_⟩
      rw [id_take_of_ne (hid ▸ hne), hid]
  | contents => exact h

/-! ### Translations -/

/-- A group is translated if one of its members is. -/
theorem isTranslated_entry (group : Group) :
    group.entry.isTranslated = group.members.any Entry.isTranslated := by
  show group.donor.isTranslated = _
  unfold donor
  cases hfound : group.members.find? Entry.isTranslated with
  | none =>
      have hnone := List.find?_eq_none.mp hfound
      have hfirst := Bool.eq_false_iff.mpr (hnone group.first List.mem_cons_self)
      rw [Option.getD_none, hfirst, eq_comm, List.any_eq_false]
      exact hnone
  | some member =>
      have hmember := List.find?_some hfound
      rw [Option.getD_some, hmember, eq_comm, List.any_eq_true]
      exact ⟨member, List.mem_of_find?_eq_some hfound, hmember⟩

theorem translations_entry_of_isTranslated {group : Group} (h : group.first.isTranslated = true) :
    group.entry.translations = group.first.translations := by
  simp [entry, members, h]

theorem translations_take (group : Group) (kind : DuplicateKind) (duplicate : Entry) :
    (group.take kind duplicate).entry.translations
      = if !group.entry.isTranslated && duplicate.isTranslated then duplicate.translations
        else group.entry.translations := by
  rw [isTranslated_entry]
  simp only [entry, members_take, List.find?_append]
  cases hfound : group.members.find? Entry.isTranslated with
  | none =>
      have hany : group.members.any Entry.isTranslated = false :=
        List.any_eq_false.mpr (List.find?_eq_none.mp hfound)
      cases htranslated : duplicate.isTranslated with
      | true => simp [hany, htranslated]
      | false => simp [htranslated, take]
  | some member =>
      have hany : group.members.any Entry.isTranslated = true :=
        List.any_eq_true.mpr ⟨member, List.mem_of_find?_eq_some hfound, List.find?_some hfound⟩
      simp [hany]

/-! ### Survivors -/

theorem survivor_single (entry : Entry) : survivor ⟨entry, []⟩ = ⟨entry, false, false⟩ := by
  have hid : (((members ⟨entry, []⟩).map Entry.id).find? fun id => !id.isEmpty).getD ""
      = entry.id := by
    by_cases hempty : entry.id = ""
    · simp [members, hempty]
    · simp [members, hempty]
  have htranslations : (((members ⟨entry, []⟩).find? Entry.isTranslated).getD entry).translations
      = entry.translations := by
    cases htranslated : entry.isTranslated with
    | true => simp [members, htranslated]
    | false => simp [members, htranslated]
  rw [survivor, Group.entry, hid, htranslations]
  rfl

end Group

/-! ## Steps -/

theorem Entry.translatedBy_eq (entry donor : Entry) : entry.translatedBy donor = { entry with
    translations := if !entry.isTranslated && donor.isTranslated then donor.translations
      else entry.translations } := by
  unfold translatedBy
  split
  · rfl
  · rfl

/-- What becomes of a survivor that takes in an entry. -/
theorem Survivor.entry_absorb_eq (survivor : Survivor) (kind : DuplicateKind) (duplicate : Entry) :
    (survivor.absorb kind duplicate).entry = { survivor.entry with
      id := if kind = .contents ∧ survivor.entry.id.isEmpty then duplicate.id
        else survivor.entry.id
      translations := if !survivor.entry.isTranslated && duplicate.isTranslated then
        duplicate.translations else survivor.entry.translations } := by
  have hsteps : (survivor.absorb kind duplicate).entry
      = (if kind = .contents ∧ survivor.entry.id.isEmpty then
          { survivor.entry with id := duplicate.id } else survivor.entry).translatedBy duplicate := by
    cases kind <;> rfl
  rw [hsteps, Entry.translatedBy_eq]
  split
  · rfl
  · rfl

/-- A group with one more entry comes to the survivor that takes it in. -/
theorem Group.survivor_take {group : Group} {kind : DuplicateKind} {duplicate : Entry}
    (h : kind = .id → group.entry.id ≠ "") :
    (group.take kind duplicate).survivor = group.survivor.absorb kind duplicate := by
  have hentry : (group.take kind duplicate).entry
      = (group.survivor.absorb kind duplicate).entry := by
    have hid : (if group.entry.id.isEmpty then duplicate.id else group.entry.id)
        = if kind = .contents ∧ group.survivor.entry.id.isEmpty then duplicate.id
          else group.survivor.entry.id := by
      cases kind with
      | id => simp [survivor, h rfl]
      | contents => simp [survivor]
    have htake : (group.take kind duplicate).entry = { group.entry with
        id := (group.take kind duplicate).entry.id
        translations := (group.take kind duplicate).entry.translations } := rfl
    rw [htake, id_take, translations_take, Survivor.entry_absorb_eq, hid]
    rfl
  have hbyId : (group.take kind duplicate).took .id
      = (group.survivor.absorb kind duplicate).byId := by
    rw [took_take]
    cases kind with
    | id => exact Bool.or_true _
    | contents => exact Bool.or_false _
  have hbyContents : (group.take kind duplicate).took .contents
      = (group.survivor.absorb kind duplicate).byContents := by
    rw [took_take]
    cases kind with
    | id => exact Bool.or_false _
    | contents => exact Bool.or_true _
  rw [survivor, hentry, hbyId, hbyContents]

/-! ## What is a duplicate -/

/-- No survivor has the id of the entry. -/
def HasNewId (kept : List Survivor) (entry : Entry) : Prop :=
  entry.id = "" ∨ ∀ s ∈ kept, s.entry.id ≠ entry.id

section

variable {kept : List Survivor} {entry : Entry}

theorem holds_of_findIdx? {α : Type} {items : List α} {p : α → Bool} {position : Nat} {item : α}
    (h : items.findIdx? p = some position) (hitem : items[position]? = some item) :
    p item = true := by
  obtain ⟨hinside, hholds, -⟩ := List.findIdx?_eq_some_iff_getElem.mp h
  rw [List.getElem?_eq_getElem hinside] at hitem
  exact Option.some.inj hitem ▸ hholds

theorem hasNewId_of_findIdx?
    (h : (if entry.id.isEmpty then none else kept.findIdx? fun s => s.entry.id == entry.id)
      = none) : HasNewId kept entry := by
  split at h
  · next hempty => exact .inl (String.isEmpty_iff.mp hempty)
  · refine .inr ?_
    intro s hs
    exact beq_eq_false_iff_ne.mp (List.findIdx?_eq_none_iff.mp h s hs)

/-- A survivor takes in an entry with its id, or else one with its contents
if not both have an id. -/
theorem survivorOf_eq_some {position : Nat} {kind : DuplicateKind} {survivor : Survivor}
    (h : survivorOf kept entry = some (position, kind))
    (hsurvivor : kept[position]? = some survivor) :
    kind = .id ∧ entry.id ≠ "" ∧ survivor.entry.id = entry.id
      ∨ kind = .contents ∧ HasNewId kept entry
        ∧ survivor.entry.duplicateKey = entry.duplicateKey
        ∧ (entry.id = "" ∨ survivor.entry.id = "") := by
  simp only [survivorOf] at h
  split at h
  · next found hid =>
    cases h
    split at hid
    · cases hid
    · next hne =>
      rw [String.isEmpty_iff] at hne
      have hsame := holds_of_findIdx? hid hsurvivor
      exact .inl ⟨rfl, hne, beq_iff_eq.mp hsame⟩
  · next hid =>
    split at h
    · cases h
    · next found hcontents =>
      split at h
      · next hopen =>
        cases h
        rw [hsurvivor, Option.any_some, Bool.or_eq_true, String.isEmpty_iff,
          String.isEmpty_iff] at hopen
        have hsame := holds_of_findIdx? hcontents hsurvivor
        exact .inr ⟨rfl, hasNewId_of_findIdx? hid, beq_iff_eq.mp hsame, hopen⟩
      · cases h

/-- An entry is kept if its id is new, and so are its contents unless they
are those of a survivor and both have an id. -/
theorem survivorOf_eq_none (h : survivorOf kept entry = none) :
    HasNewId kept entry
      ∧ ∀ s ∈ kept, s.entry.duplicateKey = entry.duplicateKey →
          ∃ other ∈ kept, other.entry.duplicateKey = entry.duplicateKey
            ∧ other.entry.id ≠ "" ∧ entry.id ≠ "" := by
  simp only [survivorOf] at h
  split at h
  · cases h
  · next hid =>
    refine ⟨hasNewId_of_findIdx? hid, ?_⟩
    intro s hs hkey
    split at h
    · next hcontents =>
      have hother := List.findIdx?_eq_none_iff.mp hcontents s hs
      exact absurd hkey (beq_eq_false_iff_ne.mp hother)
    · next found hcontents =>
      split at h
      · cases h
      · next hclosed =>
        obtain ⟨hinside, hfound, -⟩ := List.findIdx?_eq_some_iff_getElem.mp hcontents
        rw [List.getElem?_eq_getElem hinside, Option.any_some, Bool.or_eq_true,
          String.isEmpty_iff, String.isEmpty_iff, not_or] at hclosed
        exact ⟨_, List.getElem_mem hinside, beq_iff_eq.mp hfound, hclosed.2, hclosed.1⟩

end

namespace Entry

/-- Two entries are no duplicates of each other: they have not the same id,
and the same contents only if both have an id. -/
def Apart (a b : Entry) : Prop :=
  (a.id ≠ "" → a.id ≠ b.id) ∧ (a.duplicateKey = b.duplicateKey → a.id ≠ "" ∧ b.id ≠ "")

theorem Apart.symm {a b : Entry} (h : a.Apart b) : b.Apart a := by
  refine ⟨?_, ?_⟩
  · intro hid heq
    exact h.1 (heq ▸ hid) heq.symm
  · intro hkey
    exact (h.2 hkey.symm).symm

instance : Std.Symm Apart := ⟨fun _ _ => Apart.symm⟩

/-- An entry that keeps its id, or gains a new one, is as apart as before. -/
theorem Apart.of_revised {a b revised : Entry} (h : a.Apart b)
    (hkey : revised.duplicateKey = a.duplicateKey)
    (hid : revised.id = a.id ∨ a.id = "" ∧ (revised.id = "" ∨ b.id ≠ revised.id)) :
    revised.Apart b := by
  rcases hid with hid | ⟨hempty, hnew⟩
  · unfold Apart
    rw [hkey, hid]
    exact h
  · refine ⟨?_, ?_⟩
    · intro hne heq
      rcases hnew with hnone | hdiffer
      · exact hne hnone
      · exact hdiffer heq.symm
    · intro hsame
      exact absurd hempty (h.2 (hkey ▸ hsame)).1

/-- Entries stay apart if one of them is revised in its place and is as apart
from the others as before. -/
theorem pairwise_apart_revised {front back : List Entry} {entry revised : Entry}
    (h : (front ++ entry :: back).Pairwise Apart)
    (hrevised : ∀ other ∈ front ++ back, entry.Apart other → revised.Apart other) :
    (front ++ revised :: back).Pairwise Apart := by
  rw [List.pairwise_append, List.pairwise_cons] at h ⊢
  obtain ⟨hfront, ⟨hentry, hback⟩, hcross⟩ := h
  refine ⟨hfront, ⟨?_, hback⟩, ?_⟩
  · intro other hother
    exact hrevised other (List.mem_append_right _ hother) (hentry other hother)
  · intro earlier hearlier later hlater
    rcases List.mem_cons.mp hlater with rfl | hlater
    · have hapart := (hcross earlier hearlier entry List.mem_cons_self).symm
      exact (hrevised earlier (List.mem_append_left _ hearlier) hapart).symm
    · exact hcross earlier hearlier later (List.mem_cons_of_mem _ hlater)

end Entry

/-- An entry that is kept is apart from all survivors. -/
theorem apart_of_survivorOf_eq_none {kept : List Survivor} {entry : Entry}
    (h : survivorOf kept entry = none) (hapart : (kept.map Survivor.entry).Pairwise Entry.Apart) :
    ∀ s ∈ kept, s.entry.Apart entry := by
  obtain ⟨hid, hcontents⟩ := survivorOf_eq_none h
  intro s hs
  refine ⟨?_, ?_⟩
  · intro hne heq
    rcases hid with hempty | hnew
    · exact hne (heq.trans hempty)
    · exact hnew s hs heq
  · intro hkey
    obtain ⟨other, hother, hsame, hotherId, hentryId⟩ := hcontents s hs hkey
    refine ⟨?_, hentryId⟩
    by_cases heq : s.entry = other.entry
    · rw [heq]
      exact hotherId
    · have hpair := hapart.forall (List.mem_map_of_mem hs) (List.mem_map_of_mem hother) heq
      exact (hpair.2 (hkey.trans hsame.symm)).1

/-- Nothing takes in an entry that is apart from all survivors. -/
theorem survivorOf_eq_none_of_apart {kept : List Survivor} {entry : Entry}
    (h : ∀ s ∈ kept, s.entry.Apart entry) : survivorOf kept entry = none := by
  cases hfound : survivorOf kept entry with
  | none => rfl
  | some found =>
      obtain ⟨position, kind⟩ := found
      have hsurvivor := List.getElem?_eq_getElem (lt_of_survivorOf hfound)
      have hapart := h _ (List.mem_of_getElem? hsurvivor)
      rcases survivorOf_eq_some hfound hsurvivor with
        ⟨-, hne, hsame⟩ | ⟨-, -, hsame, hopen⟩
      · exact absurd hsame (hapart.1 (hsame ▸ hne))
      · obtain ⟨hsurvivorId, hentryId⟩ := hapart.2 hsame
        rcases hopen with hempty | hempty
        · exact absurd hempty hentryId
        · exact absurd hempty hsurvivorId

/-- Entries that are apart all survive. -/
theorem survivors_of_apart {entries : List Entry} (h : entries.Pairwise Entry.Apart) :
    survivors entries = entries.map fun entry => ⟨entry, false, false⟩ := by
  induction entries using List.reverseRecOn with
  | nil => rfl
  | append_singleton entries entry ih =>
      obtain ⟨hentries, -, hlast⟩ := List.pairwise_append.mp h
      have hnone : survivorOf (entries.map fun entry => ⟨entry, false, false⟩) entry = none := by
        refine survivorOf_eq_none_of_apart ?_
        intro s hs
        obtain ⟨e, he, rfl⟩ := List.mem_map.mp hs
        exact hlast e he entry List.mem_cons_self
      rw [survivors_append_singleton, ih hentries, List.map_append]
      simp only [foldEntry, hnone, List.map_cons, List.map_nil]

/-! ## The run of the groups -/

/-- Puts one more entry into the group that takes it in, or into one of its
own. -/
def groupEntry (groups : List Group) (entry : Entry) : List Group :=
  match survivorOf (groups.map Group.survivor) entry with
  | some (position, kind) => groups.modify position fun group => group.take kind entry
  | none => groups ++ [⟨entry, []⟩]

/-- The groups that folding divides some entries into. -/
def groupsOf (entries : List Entry) : List Group := entries.foldl groupEntry []

theorem groupsOf_append_singleton (entries : List Entry) (entry : Entry) :
    groupsOf (entries ++ [entry]) = groupEntry (groupsOf entries) entry := by
  rw [groupsOf, List.foldl_append]
  rfl

theorem groupEntry_of_some {groups : List Group} {entry : Entry} {position : Nat}
    {kind : DuplicateKind} {group : Group}
    (h : survivorOf (groups.map Group.survivor) entry = some (position, kind))
    (hgroup : groups[position]? = some group) :
    groupEntry groups entry = groups.set position (group.take kind entry) := by
  simp only [groupEntry, h, List.modify_eq_set_getElem?, hgroup]
  rfl

/-! ## Groupings -/

/-- Some groups are what folding divides some entries into. -/
structure IsGroupingOf (groups : List Group) (entries : List Entry) : Prop where
  /-- Every entry is in one place of one group. -/
  perm : entries.Perm (groups.flatMap Group.members)
  /-- The first ones stand in the order that they came in. -/
  sublist : (groups.map Group.first).Sublist entries
  apart : (groups.map Group.entry).Pairwise Entry.Apart
  shares : ∀ group ∈ groups, ∀ kind duplicate, (kind, duplicate) ∈ group.taken →
    group.Shares duplicate kind

namespace IsGroupingOf

variable {groups : List Group} {entries : List Entry} {entry : Entry}

theorem nil : IsGroupingOf [] [] where
  perm := .nil
  sublist := .slnil
  apart := .nil
  shares _ h := nomatch h

/-- An entry that is kept begins a group. -/
theorem concat (h : IsGroupingOf groups entries)
    (hapart : ∀ group ∈ groups, group.entry.Apart entry) :
    IsGroupingOf (groups ++ [⟨entry, []⟩]) (entries ++ [entry]) where
  perm := by
    rw [List.flatMap_append]
    exact h.perm.append_right [entry]
  sublist := by
    rw [List.map_append]
    exact h.sublist.append_right [entry]
  apart := by
    have hsingle : Group.entry ⟨entry, []⟩ = entry := by
      have hsurvivor := congrArg Survivor.entry (Group.survivor_single entry)
      exact hsurvivor
    rw [List.map_append, List.map_singleton, hsingle, List.pairwise_append]
    refine ⟨h.apart, List.pairwise_singleton _ _, ?_⟩
    intro kept hkept last hlast
    obtain ⟨group, hgroup, rfl⟩ := List.mem_map.mp hkept
    rw [List.mem_singleton.mp hlast]
    exact hapart group hgroup
  shares := by
    intro group hgroup kind duplicate hmem
    rcases List.mem_append.mp hgroup with hgroup | hgroup
    · exact h.shares group hgroup kind duplicate hmem
    · rw [List.mem_singleton.mp hgroup] at hmem
      cases hmem

/-- A group that takes in an entry keeps its id, or gains one that no other
group has. -/
theorem take (h : IsGroupingOf groups entries) {position : Nat} {group : Group}
    (hgroup : groups[position]? = some group) {kind : DuplicateKind}
    (hshares : (group.take kind entry).Shares entry kind)
    (hid : (group.take kind entry).entry.id = group.entry.id
      ∨ group.entry.id = "" ∧ ((group.take kind entry).entry.id = ""
        ∨ ∀ other ∈ groups, other.entry.id ≠ (group.take kind entry).entry.id)) :
    IsGroupingOf (groups.set position (group.take kind entry)) (entries ++ [entry]) := by
  obtain ⟨hinside, hget⟩ := List.getElem?_eq_some_iff.mp hgroup
  obtain ⟨front, back, hsplit, -, hset⟩ : ∃ front back, groups = front ++ groups[position] :: back
      ∧ front.length = position
      ∧ groups.set position (group.take kind entry) = front ++ group.take kind entry :: back :=
    List.exists_of_set hinside
  rw [hget] at hsplit
  subst hsplit
  rw [hset]
  constructor
  case perm =>
    have hperm := h.perm.append_right [entry]
    have hswap : (back.flatMap Group.members ++ [entry]).Perm
        ([entry] ++ back.flatMap Group.members) := List.perm_append_comm
    simp only [List.flatMap_append, List.flatMap_cons, Group.members_take,
      List.append_assoc] at hperm ⊢
    exact hperm.trans ((hswap.append_left _).append_left _)
  case sublist =>
    have hsub := h.sublist
    rw [List.map_append, List.map_cons] at hsub ⊢
    exact hsub.trans (List.sublist_append_left entries [entry])
  case apart =>
    have hapart := h.apart
    rw [List.map_append, List.map_cons] at hapart ⊢
    refine Entry.pairwise_apart_revised hapart ?_
    intro other hother hbefore
    rw [← List.map_append] at hother
    obtain ⟨g, hg, rfl⟩ := List.mem_map.mp hother
    have hg : g ∈ front ++ group :: back :=
      ((List.sublist_cons_self group back).append_left front).subset hg
    refine hbefore.of_revised rfl ?_
    rcases hid with hsame | ⟨hempty, hnone | hnew⟩
    · exact .inl hsame
    · exact .inr ⟨hempty, .inl hnone⟩
    · exact .inr ⟨hempty, .inr (hnew g hg)⟩
  case shares =>
    intro other hother k duplicate hmem
    rcases List.mem_append.mp hother with hother | hother
    · exact h.shares other (List.mem_append_left _ hother) k duplicate hmem
    rcases List.mem_cons.mp hother with rfl | hother
    · rcases List.mem_append.mp hmem with hmem | hmem
      · have hknown := h.shares group (List.mem_append_right _ List.mem_cons_self) k duplicate hmem
        exact hknown.take kind entry
      · cases List.mem_singleton.mp hmem
        exact hshares
    · exact h.shares other (List.mem_append_right _ (List.mem_cons_of_mem _ hother)) k duplicate
        hmem

/-- A step of the fold leaves a grouping of one more entry. -/
theorem step (h : IsGroupingOf groups entries) (entry : Entry) :
    IsGroupingOf (groupEntry groups entry) (entries ++ [entry])
      ∧ foldEntry (groups.map Group.survivor) entry
        = (groupEntry groups entry).map Group.survivor := by
  have hentries : (groups.map Group.survivor).map Survivor.entry = groups.map Group.entry :=
    List.map_map
  rcases foldEntry_cases (groups.map Group.survivor) entry with
    ⟨hnone, heq⟩ | ⟨position, kind, survivor, hsome, hsurvivor, heq⟩
  · have hgroups : groupEntry groups entry = groups ++ [⟨entry, []⟩] := by
      rw [groupEntry, hnone]
    rw [hgroups]
    refine ⟨h.concat ?_, ?_⟩
    · intro group hgroup
      exact apart_of_survivorOf_eq_none hnone (hentries ▸ h.apart) _ (List.mem_map_of_mem hgroup)
    · rw [heq, List.map_append, List.map_singleton, Group.survivor_single]
  · have hfound := survivorOf_eq_some hsome hsurvivor
    rw [List.getElem?_map] at hsurvivor
    obtain ⟨group, hgroup, rfl⟩ := Option.map_eq_some_iff.mp hsurvivor
    rw [groupEntry_of_some hsome hgroup]
    rcases hfound with ⟨rfl, hne, hsame⟩ | ⟨rfl, hnew, hsame, -⟩
    · have hsame : group.entry.id = entry.id := hsame
      have hgroupId : group.entry.id ≠ "" := hsame ▸ hne
      have hid := Group.id_take_of_ne hgroupId .id entry
      have hshares : (group.take .id entry).Shares entry .id := ⟨hne, (hid.trans hsame).symm⟩
      refine ⟨h.take hgroup hshares (.inl hid), ?_⟩
      rw [heq, List.map_set, Group.survivor_take fun _ => hgroupId]
    · have hsame : group.entry.duplicateKey = entry.duplicateKey := hsame
      have hshares : (group.take .contents entry).Shares entry .contents := hsame.symm
      refine ⟨h.take hgroup hshares ?_, ?_⟩
      · by_cases hempty : group.entry.id = ""
        · have hid : (group.take .contents entry).entry.id = entry.id := by
            rw [Group.id_take, hempty]
            rfl
          have hothers : entry.id = "" ∨ ∀ other ∈ groups, other.entry.id ≠ entry.id :=
            hnew.imp_right fun h other hother => h _ (List.mem_map_of_mem hother)
          rw [hid]
          exact .inr ⟨hempty, hothers⟩
        · exact .inl (Group.id_take_of_ne hempty .contents entry)
      · have hkind : DuplicateKind.contents = .id → group.entry.id ≠ "" := fun h => nomatch h
        rw [heq, List.map_set, Group.survivor_take hkind]

end IsGroupingOf

/-- Folding divides the entries into groups, and what it leaves of them are
the survivors. -/
theorem isGroupingOf_groupsOf (entries : List Entry) :
    IsGroupingOf (groupsOf entries) entries
      ∧ survivors entries = (groupsOf entries).map Group.survivor := by
  induction entries using List.reverseRecOn with
  | nil => exact ⟨.nil, rfl⟩
  | append_singleton entries entry ih =>
      obtain ⟨hgroups, hsurvivors⟩ := ih
      rw [groupsOf_append_singleton, survivors_append_singleton, hsurvivors]
      exact hgroups.step entry

theorem Catalog.entries_foldDuplicates (catalog : Catalog) :
    catalog.foldDuplicates.1.entries = (groupsOf catalog.entries).map Group.entry := by
  show (survivors catalog.entries).map Survivor.entry = _
  rw [(isGroupingOf_groupsOf _).2, List.map_map]
  rfl

/-! ## Positions -/

theorem mem_positionsOf {isMember : Survivor → Bool} {kept : List Survivor} {position : Nat} :
    position ∈ positionsOf isMember kept
      ↔ ∃ s, kept[position]? = some s ∧ isMember s = true := by
  unfold positionsOf
  constructor
  · intro hmem
    obtain ⟨⟨s, place⟩, hs, rfl⟩ := List.mem_map.mp hmem
    obtain ⟨hat, hmember⟩ := List.mem_filter.mp hs
    exact ⟨s, List.mk_mem_zipIdx_iff_getElem?.mp hat, hmember⟩
  · rintro ⟨s, hat, hmember⟩
    exact List.mem_map.mpr ⟨(s, position),
      List.mem_filter.mpr ⟨List.mk_mem_zipIdx_iff_getElem?.mpr hat, hmember⟩, rfl⟩

theorem mem_positionsOf_map {isMember : Survivor → Bool} {groups : List Group} {position : Nat} :
    position ∈ positionsOf isMember (groups.map Group.survivor)
      ↔ ∃ group, groups[position]? = some group ∧ isMember group.survivor = true := by
  rw [mem_positionsOf]
  constructor
  · rintro ⟨s, hat, hmember⟩
    rw [List.getElem?_map] at hat
    obtain ⟨group, hgroup, rfl⟩ := Option.map_eq_some_iff.mp hat
    exact ⟨group, hgroup, hmember⟩
  · rintro ⟨group, hgroup, hmember⟩
    exact ⟨group.survivor, by rw [List.getElem?_map, hgroup]; rfl, hmember⟩

/-! ## Folding -/

/-- Entries that are apart are left alone. -/
theorem Catalog.foldDuplicates_of_apart {catalog : Catalog}
    (h : catalog.entries.Pairwise Entry.Apart) : catalog.foldDuplicates = (catalog, {}) := by
  have hkept := survivors_of_apart h
  have hentries : (survivors catalog.entries).map Survivor.entry = catalog.entries := by
    rw [hkept, List.map_map]
    exact List.map_id _
  have hnone : ∀ isMember : Survivor → Bool, (∀ entry, isMember ⟨entry, false, false⟩ = false) →
      positionsOf isMember (survivors catalog.entries) = [] := by
    intro isMember hunmarked
    rw [List.eq_nil_iff_forall_not_mem]
    intro position hmem
    obtain ⟨s, hs, hmember⟩ := mem_positionsOf.mp hmem
    rw [hkept] at hs
    obtain ⟨entry, -, rfl⟩ := List.mem_map.mp (List.mem_of_getElem? hs)
    rw [hunmarked entry] at hmember
    cases hmember
  simp only [Catalog.foldDuplicates, hentries, hnone Survivor.byId fun _ => rfl,
    hnone Survivor.byContents fun _ => rfl]

/-- Folding the duplicates of a store divides its entries into groups and
leaves what becomes of the first ones.  These keep an id and translations
that they have, and are translated if some member is; no two of them are
duplicates.  The groups that took in an entry are reported, and folding once
more changes and reports nothing. -/
theorem Store.exists_groups_foldDuplicates (store : Store) :
    ∃ groups : List Group, IsGroupingOf groups store.entries
      ∧ store.foldDuplicates.1.catalog
          = { store.catalog with entries := groups.map Group.entry }
      ∧ (∀ group ∈ groups, (group.first.id ≠ "" → group.entry.id = group.first.id)
          ∧ (group.first.isTranslated → group.entry.translations = group.first.translations)
          ∧ ∀ member ∈ group.members, member.isTranslated → group.entry.isTranslated)
      ∧ (∀ position, position ∈ store.foldDuplicates.2.byId
          ↔ ∃ group, groups[position]? = some group ∧ group.took .id)
      ∧ (∀ position, position ∈ store.foldDuplicates.2.byContents
          ↔ ∃ group, groups[position]? = some group ∧ group.took .contents)
      ∧ store.foldDuplicates.1.foldDuplicates = (store.foldDuplicates.1, {}) := by
  obtain ⟨hgroups, hsurvivors⟩ := isGroupingOf_groupsOf store.entries
  have hcatalog : store.foldDuplicates.1.catalog
      = { store.catalog with entries := (groupsOf store.entries).map Group.entry } :=
    congrArg (fun entries => { store.catalog with entries }) store.catalog.entries_foldDuplicates
  refine ⟨groupsOf store.entries, hgroups, hcatalog, ?_, ?_, ?_, ?_⟩
  · intro group _
    refine ⟨Group.id_entry_of_ne, Group.translations_entry_of_isTranslated, ?_⟩
    intro member hmember htranslated
    rw [Group.isTranslated_entry, List.any_eq_true]
    exact ⟨member, hmember, htranslated⟩
  · intro position
    show position ∈ positionsOf Survivor.byId (survivors store.entries) ↔ _
    rw [hsurvivors, mem_positionsOf_map]
    rfl
  · intro position
    show position ∈ positionsOf Survivor.byContents (survivors store.entries) ↔ _
    rw [hsurvivors, mem_positionsOf_map]
    rfl
  · have hapart : store.foldDuplicates.1.catalog.entries.Pairwise Entry.Apart := by
      rw [hcatalog]
      exact hgroups.apart
    have hagain := Catalog.foldDuplicates_of_apart hapart
    generalize store.foldDuplicates.1 = folded at hagain
    unfold Store.foldDuplicates
    rw [hagain]
    show ({ folded with fresh := folded.fresh && true }, _) = _
    rw [Bool.and_true]

/-- The second entry is folded by its contents, and brings the id that the
third one is folded by. -/
example :
    Catalog.foldDuplicates { entries := [
        { context := "C", source := "Open" },
        { id := "open", context := "C", source := "Open", translations := ["Auf"] },
        { id := "open", context := "D", source := "Close" }] }
      = ({ entries := [
            { id := "open", context := "C", source := "Open", translations := ["Auf"] }] },
          { byId := [0], byContents := [0] }) := by
  decide

end MessageCatalog
