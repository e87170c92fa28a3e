/-
# `MessageCatalog.Proofs.StoreRun` — looking up in the course of a run

A store is changed by operations, in any order (`Operation`, `Store.run`).
Each of them is made of steps of five kinds (`Step`):

    refresh   the index is built anew, if it is stale
    disturb   the index is left stale, whatever else happens
    append    an entry is put in at the end
    rekey     an entry is put in the place of another one
    revise    entries are changed, but not in what they are filed under

`Operation.steps` takes every operation apart, and nothing later looks into
an operation again: what the five steps keep, every run keeps.

All of them keep a fresh index sound, so a look-up never leads to an entry
that does not match.  Only four of them keep it covering the entries.  When
an entry is rekeyed its old keys are forgotten, and if another entry has one
of them too, that entry is no longer found until the index is built anew.
-/
import Mathlib.Logic.Relation
import MessageCatalog.Catalog.Forms
import MessageCatalog.Catalog.Merge
import MessageCatalog.Proofs.Extending
import MessageCatalog.Proofs.Folding
import MessageCatalog.Proofs.Indexing

namespace MessageCatalog

/-! ## Operations -/

/-- An operation on a store. -/
inductive Operation where
  | insert (position : Nat) (entry : Entry)
  | append (entry : Entry)
  | insertSorted (entry : Entry)
  | replace (entry : Entry)
  | extend (entry : Entry)
  /-- A pass that drops the entries of a class. -/
  | strip (drops : Entry → Bool)
  | foldDuplicates
  | fit
  | dropTranslations
  | resolveReferences (root : Path)
  /-- Entries are changed at will. -/
  | edit (change : List Entry → List Entry)
  /-- Everything but the entries is taken from another catalog. -/
  | describe (other : Catalog)
  | find (entry : Entry)
  | findId (id : String)
  | findContext (context : String)

/-- What an operation leaves of a store. -/
def Operation.apply (store : Store) : Operation → Store
  | .insert position entry => store.insert position entry
  | .append entry => store.append entry
  | .insertSorted entry => store.insertSorted entry
  | .replace entry => store.replace entry
  | .extend entry => (store.extend entry).1
  | .strip drops => store.strip drops
  | .foldDuplicates => store.foldDuplicates.1
  | .fit => store.update Catalog.fitted
  | .dropTranslations => store.update Catalog.dropTranslations
  | .resolveReferences root => store.update (Catalog.resolveReferences root)
  | .edit change => store.edit change
  | .describe other => store.update fun catalog => { other with entries := catalog.entries }
  | .find entry => (store.find entry).2
  | .findId id => (store.findId id).2
  | .findContext context => (store.findContext context).2

/-- A store after some operations. -/
def Store.run (store : Store) (operations : List Operation) : Store :=
  operations.foldl Operation.apply store

/-! ## What entries are filed under -/

namespace Entry

theorem isFiledUnder_eq {a b : Entry} (hkey : a.contentKey = b.contentKey) (hid : a.id = b.id) :
    a.isFiledUnder = b.isFiledUnder := by
  simp only [contentKey, ContentKey.mk.injEq] at hkey
  obtain ⟨hcontext, hsource, hcomment⟩ := hkey
  funext key
  cases key <;> simp [isFiledUnder, isPlaceholder, contentKey, hcontext, hsource, hcomment, hid]

theorem isFiledUnder_fitted (forms : Nat) (entry : Entry) :
    (entry.fitted forms).isFiledUnder = entry.isFiledUnder :=
  isFiledUnder_eq rfl rfl

theorem isFiledUnder_untranslated (entry : Entry) :
    entry.untranslated.isFiledUnder = entry.isFiledUnder :=
  isFiledUnder_eq rfl rfl

theorem isFiledUnder_resolved (root : Path) (entry : Entry) :
    (entry.resolved root).isFiledUnder = entry.isFiledUnder := by
  unfold resolved
  cases entry.references.map fun r => ({ r with file := root.join r.file } : Reference) with
  | nil => exact isFiledUnder_eq rfl rfl
  | cons first rest => exact isFiledUnder_eq rfl rfl

theorem isFiledUnder_addNewReference (entry : Entry) (reference : Reference) :
    (entry.addNewReference reference).isFiledUnder = entry.isFiledUnder := by
  unfold addNewReference addReference
  split
  · rfl
  · split
    · exact isFiledUnder_eq rfl rfl
    · exact isFiledUnder_eq rfl rfl

theorem isFiledUnder_joined (entry incoming : Entry) :
    (entry.joined incoming).isFiledUnder = (entry.withSourceOf incoming).isFiledUnder := by
  unfold joined
  cases incoming.file with
  | none => exact isFiledUnder_eq rfl rfl
  | some file =>
      refine Eq.trans (isFiledUnder_eq rfl rfl) (isFiledUnder_addNewReference _ _)

/-- An extended entry is filed like one that took the source text. -/
theorem isFiledUnder_extend (entry incoming : Entry) :
    (entry.extend incoming).1.isFiledUnder = (entry.withSourceOf incoming).isFiledUnder := by
  rcases entry.extend_cases incoming with hjoined | ⟨-, _, hrefused⟩
  · rw [hjoined]
    exact isFiledUnder_joined entry incoming
  · rw [hrefused]

end Entry

/-! ## Steps -/

namespace Store

/-- The store with an entry in the place of another one. -/
def rekeyed (store : Store) (position : Nat) (old new : Entry) : Store :=
  { store.withEntries (store.entries.set position new) with
    index := (store.index.remove old).put position new }

/-- A step from a store to another one.  Which entries may be put in the
place of others is a parameter. -/
inductive Step (rekeys : List Entry → Nat → Entry → Prop) : Store → Store → Prop
  | refresh {store : Store} : Step rekeys store store.refreshed
  | disturb {store next : Store} : next.fresh = false → Step rekeys store next
  | append {store next : Store} (entry : Entry) : store.fresh = true →
      next.entries = store.entries ++ [entry] →
      next.index = store.index.put store.entries.length entry → Step rekeys store next
  | rekey {store : Store} {position : Nat} {old new : Entry} : store.fresh = true →
      rekeys store.entries position new → store.entries[position]? = some old →
      Step rekeys store (store.rekeyed position old new)
  | revise {store next : Store} : next.fresh = store.fresh → next.index = store.index →
      next.entries.map Entry.isFiledUnder = store.entries.map Entry.isFiledUnder →
      Step rekeys store next

/-- Some steps, one after the other. -/
abbrev Steps (rekeys : List Entry → Nat → Entry → Prop) : Store → Store → Prop :=
  Relation.ReflTransGen (Step rekeys)

variable {rekeys : List Entry → Nat → Entry → Prop}

theorem step_insert (store : Store) (position : Nat) (entry : Entry) :
    Step rekeys store (store.insert position entry) := by
  simp only [insert]
  split
  · next h =>
    obtain ⟨hfresh, hposition⟩ := Bool.and_eq_true_iff.mp h
    rw [beq_iff_eq] at hposition
    refine .append entry hfresh ?_ ?_
    · show store.entries.insertIdx (min position store.entries.length) entry = _
      rw [hposition, List.insertIdx_length_self]
    · rw [hposition]
  · exact .disturb rfl

/-- A change of every entry that leaves it under its keys. -/
theorem step_update {store : Store} {change : Catalog → Catalog}
    (h : (change store.catalog).entries.map Entry.isFiledUnder
      = store.catalog.entries.map Entry.isFiledUnder) : Step rekeys store (store.update change) :=
  .revise rfl rfl h

theorem map_isFiledUnder {change : Entry → Entry}
    (h : ∀ entry, (change entry).isFiledUnder = entry.isFiledUnder) (entries : List Entry) :
    (entries.map change).map Entry.isFiledUnder = entries.map Entry.isFiledUnder := by
  rw [List.map_map]
  exact List.map_congr_left fun entry _ => h entry

theorem steps_strip (store : Store) (drops : Entry → Bool) :
    Steps rekeys store (store.strip drops) := by
  unfold strip
  split
  · exact .single (.disturb rfl)
  · exact .refl

theorem step_foldDuplicates (store : Store) : Step rekeys store store.foldDuplicates.1 := by
  cases h : store.catalog.foldDuplicates.2.isEmpty with
  | true =>
      refine .revise ?_ rfl ?_
      · show (store.fresh && store.catalog.foldDuplicates.2.isEmpty) = store.fresh
        rw [h, Bool.and_true]
      · show store.catalog.foldDuplicates.1.entries.map _ = store.catalog.entries.map _
        rw [Catalog.foldDuplicates_of_isEmpty h]
  | false =>
      refine .disturb ?_
      show (store.fresh && store.catalog.foldDuplicates.2.isEmpty) = false
      rw [h, Bool.and_false]

/-- Replacing looks up the entry first, and then rekeys what was found. -/
theorem steps_replace {store : Store} {entry : Entry}
    (h : ∀ position, (store.find entry).1 = some position → rekeys store.entries position entry) :
    Steps rekeys store (store.replace entry) := by
  refine .trans (.single .refresh) ?_
  rw [← entries_refreshed] at h
  unfold replace
  unfold find at h ⊢
  cases hfound : store.refreshed.locate entry with
  | none => exact .single (step_insert _ _ _)
  | some position =>
      dsimp only
      cases hold : store.refreshed.entries[position]? with
      | none => exact .refl
      | some old => exact .single (.rekey (fresh_refreshed store) (h position hfound) hold)

theorem map_set_isFiledUnder {entries : List Entry} {position : Nat} {old new : Entry}
    (hold : entries[position]? = some old) (hsame : new.isFiledUnder = old.isFiledUnder) :
    (entries.set position new).map Entry.isFiledUnder = entries.map Entry.isFiledUnder := by
  obtain ⟨hinside, rfl⟩ := List.getElem?_eq_some_iff.mp hold
  rw [List.map_set, hsame, ← List.map_set, List.set_getElem_self]

/-- Extending looks up the entry first.  One without a source text is
rekeyed under the text that it takes, and nothing else that it gains is part
of a key. -/
theorem steps_extend {store : Store} {incoming : Entry}
    (h : ∀ position old, (store.find incoming).1 = some position →
      store.entries[position]? = some old →
        rekeys store.entries position (old.withSourceOf incoming)) :
    Steps rekeys store (store.extend incoming).1 := by
  refine .trans (.single .refresh) ?_
  rw [← entries_refreshed] at h
  unfold extend
  unfold find at h ⊢
  cases hfound : store.refreshed.locate incoming with
  | none => exact .single (step_insert _ _ _)
  | some position =>
      dsimp only
      cases hold : store.refreshed.entries[position]? with
      | none => exact .refl
      | some old =>
          dsimp only
          have hextended := Entry.isFiledUnder_extend old incoming
          cases hsource : old.source.isEmpty with
          | true =>
              refine .trans (.single (.rekey (fresh_refreshed store) (h position old hfound hold)
                hold)) (.single (.revise rfl rfl ?_))
              show (store.refreshed.entries.set position (old.extend incoming).1).map _
                = (store.refreshed.entries.set position (old.withSourceOf incoming)).map _
              rw [List.map_set, List.map_set, hextended]
          | false =>
              rw [Entry.withSourceOf_of_source hsource] at hextended
              exact .single (.revise rfl rfl (map_set_isFiledUnder hold hextended))

end Store

/-! ## Runs -/

/-- What the operation puts in the place of another entry may stand there. -/
def Operation.IsWithin (rekeys : List Entry → Nat → Entry → Prop) (store : Store) :
    Operation → Prop
  | .replace entry =>
    ∀ position, (store.find entry).1 = some position → rekeys store.entries position entry
  | .extend incoming =>
    ∀ position old, (store.find incoming).1 = some position →
      store.entries[position]? = some old →
        rekeys store.entries position (old.withSourceOf incoming)
  | _ => True

section

variable {rekeys : List Entry → Nat → Entry → Prop}

/-- Every operation is a sequence of steps. -/
theorem Operation.steps {store : Store} {operation : Operation}
    (h : operation.IsWithin rekeys store) : Store.Steps rekeys store (operation.apply store) := by
  cases operation with
  | insert position entry => exact .single (Store.step_insert _ _ _)
  | append entry => exact .single (Store.step_insert _ _ _)
  | insertSorted entry => exact .single (Store.step_insert _ _ _)
  | replace entry => exact Store.steps_replace h
  | extend incoming => exact Store.steps_extend h
  | strip drops => exact Store.steps_strip _ _
  | foldDuplicates => exact .single (Store.step_foldDuplicates _)
  | fit =>
      exact .single (Store.step_update (Store.map_isFiledUnder (Entry.isFiledUnder_fitted _) _))
  | dropTranslations =>
      exact .single (Store.step_update (Store.map_isFiledUnder Entry.isFiledUnder_untranslated _))
  | resolveReferences root =>
      exact .single (Store.step_update (Store.map_isFiledUnder (Entry.isFiledUnder_resolved _) _))
  | edit change => exact .single (.disturb rfl)
  | describe other => exact .single (.revise rfl rfl rfl)
  | find entry => exact .single .refresh
  | findId id => exact .single .refresh
  | findContext context => exact .single .refresh

/-- In the course of some operations nothing is put in the place of another
entry that may not stand there. -/
def Store.RunsWithin (rekeys : List Entry → Nat → Entry → Prop) : Store → List Operation → Prop
  | _, [] => True
  | store, operation :: rest =>
    operation.IsWithin rekeys store ∧ RunsWithin rekeys (operation.apply store) rest

theorem Store.runsWithin_true (operations : List Operation) :
    ∀ store : Store, store.RunsWithin (fun _ _ _ => True) operations := by
  induction operations with
  | nil => exact fun _ => trivial
  | cons operation operations ih =>
      intro store
      refine ⟨?_, ih _⟩
      cases operation <;> simp [Operation.IsWithin]

/-- A run is a sequence of steps. -/
theorem Store.steps_run (operations : List Operation) :
    ∀ store : Store, store.RunsWithin rekeys operations →
      Store.Steps rekeys store (store.run operations) := by
  induction operations with
  | nil => exact fun _ _ => .refl
  | cons operation operations ih =>
      intro store h
      exact .trans (Operation.steps h.1) (ih _ h.2)

/-- A relation between an index and the entries it stands for that all steps
keep, as long as the index is fresh. -/
structure Store.IsKept (rekeys : List Entry → Nat → Entry → Prop)
    (P : Index → List Entry → Prop) : Prop where
  refresh : ∀ entries, P (.of entries) entries
  append : ∀ index entries entry, P index entries →
    P (index.put entries.length entry) (entries ++ [entry])
  rekey : ∀ index entries position old new, P index entries → rekeys entries position new →
    entries[position]? = some old →
      P ((index.remove old).put position new) (entries.set position new)
  revise : ∀ index entries revised, P index entries →
    revised.map Entry.isFiledUnder = entries.map Entry.isFiledUnder → P index revised

variable {P : Index → List Entry → Prop}

theorem Store.IsKept.step (hkept : Store.IsKept rekeys P) {store next : Store}
    (h : Store.Step rekeys store next) (hstore : store.fresh = true → P store.index store.entries)
    (hfresh : next.fresh = true) : P next.index next.entries := by
  cases h with
  | refresh =>
      unfold Store.refreshed
      split
      · next h => exact hstore h
      · exact hkept.refresh _
  | disturb hstale =>
      rw [hstale] at hfresh
      cases hfresh
  | append entry hbefore hentries hindex =>
      rw [hentries, hindex]
      exact hkept.append _ _ entry (hstore hbefore)
  | rekey hbefore hallowed hold => exact hkept.rekey _ _ _ _ _ (hstore hbefore) hallowed hold
  | revise hsame hindex hentries =>
      rw [hindex]
      rw [hsame] at hfresh
      exact hkept.revise _ _ _ (hstore hfresh) hentries

theorem Store.IsKept.steps (hkept : Store.IsKept rekeys P) {store next : Store}
    (h : Store.Steps rekeys store next) (hstore : store.fresh = true → P store.index store.entries) :
    next.fresh = true → P next.index next.entries := by
  induction h with
  | refl => exact hstore
  | tail _ hstep ih => exact hkept.step hstep ih

/-- What the steps keep holds of every index that a look-up asks in the
course of a run. -/
theorem Store.IsKept.run (hkept : Store.IsKept rekeys P) {catalog : Catalog}
    {operations : List Operation} (h : (Store.ofCatalog catalog).RunsWithin rekeys operations)
    {store : Store} (hrun : (Store.ofCatalog catalog).run operations = store) :
    P store.refreshed.index store.refreshed.entries := by
  subst hrun
  have hsteps := (Store.steps_run operations _ h).tail .refresh
  -- the index of the catalog that the run starts from is stale
  exact hkept.steps hsteps (fun hfresh => nomatch hfresh) (Store.fresh_refreshed _)

theorem Store.isKept_sound : Store.IsKept (fun _ _ _ => True) Index.Sound where
  refresh := Index.sound_of
  append _ _ entry h := h.append entry
  rekey _ _ _ _ new h _ hold := h.rekey hold new
  revise _ _ _ h hsame := h.revise hsame

theorem Store.isKept_covers : Store.IsKept Index.Spares Index.Covers where
  refresh := Index.covers_of
  append _ _ entry h := h.append entry
  rekey _ _ _ _ _ h hspares hold := h.rekey hold hspares
  revise _ _ _ h hsame := h.revise hsame

end

end MessageCatalog
