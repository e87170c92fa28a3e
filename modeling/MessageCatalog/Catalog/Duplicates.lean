/-
# `MessageCatalog.Catalog.Duplicates` — folding duplicates

Two entries are duplicates when they have the same id, or the same contents
and not two ids.  A later duplicate is folded into the first one, the
survivor.  The survivor takes the id of an entry with its contents, if it
has none, and the translations of a translated entry, if it is untranslated
itself.

The fold keeps the survivors in their order.  Each of them remembers
whether it took in an entry by its id or by its contents.
-/
import MessageCatalog.Catalog.Store
import MessageCatalog.Remark

namespace MessageCatalog

/-! ## Survivors -/

/-- What duplicates have in common.  Without a source text the comment does
not count. -/
structure DuplicateKey where
  context : String
  source : String
  comment : Option String
deriving DecidableEq, Repr

/-- The duplicate key of an entry. -/
def Entry.duplicateKey (entry : Entry) : DuplicateKey :=
  ⟨entry.context, entry.source, if entry.source.isEmpty then none else some entry.comment⟩

/-- Why an entry is a duplicate. -/
inductive DuplicateKind where
  | id
  | contents
deriving DecidableEq, Repr

/-- An entry that is kept, and whether it took in others. -/
structure Survivor where
  entry : Entry
  byId : Bool := false
  byContents : Bool := false
deriving DecidableEq, Inhabited

/-- The survivor takes in an entry. -/
def Survivor.absorb (survivor : Survivor) (kind : DuplicateKind) (duplicate : Entry) : Survivor :=
  let kept := survivor.entry
  let kept :=
    if kind = .contents ∧ kept.id.isEmpty then { kept with id := duplicate.id } else kept
  let kept :=
    if !kept.isTranslated && duplicate.isTranslated then
      { kept with translations := duplicate.translations }
    else kept
  match kind with
  | .id => { survivor with entry := kept, byId := true }
  | .contents => { survivor with entry := kept, byContents := true }

/-- The survivor that an entry is a duplicate of. -/
def survivorOf (survivors : List Survivor) (entry : Entry) : Option (Nat × DuplicateKind) :=
  let sameId :=
    if entry.id.isEmpty then none else survivors.findIdx? fun s => s.entry.id == entry.id
  match sameId with
  | some position => some (position, .id)
  | none =>
    match survivors.findIdx? fun s => s.entry.duplicateKey == entry.duplicateKey with
    | none => none
    | some position =>
      if entry.id.isEmpty || (survivors[position]?).any fun s => s.entry.id.isEmpty then
        some (position, .contents)
      else none

/-- Folds one more entry. -/
def foldEntry (survivors : List Survivor) (entry : Entry) : List Survivor :=
  match survivorOf survivors entry with
  | some (position, kind) => survivors.modify position fun s => s.absorb kind entry
  | none => survivors ++ [{ entry }]

/-- The survivors of some entries. -/
def survivors (entries : List Entry) : List Survivor := entries.foldl foldEntry []

/-! ## Positions -/

/-- The positions of the survivors that took in an entry. -/
structure Duplicates where
  byId : List Nat := []
  byContents : List Nat := []
deriving DecidableEq, Inhabited, Repr

/-- Nothing was folded. -/
def Duplicates.isEmpty (duplicates : Duplicates) : Bool :=
  duplicates.byId.isEmpty && duplicates.byContents.isEmpty

/-- The positions of the survivors of a class, in ascending order. -/
def positionsOf (isMember : Survivor → Bool) (survivors : List Survivor) : List Nat :=
  (survivors.zipIdx.filter fun s => isMember s.1).map Prod.snd

/-- Folds the duplicates of a catalog. -/
def Catalog.foldDuplicates (catalog : Catalog) : Catalog × Duplicates :=
  let kept := survivors catalog.entries
  ({ catalog with entries := kept.map Survivor.entry },
    { byId := positionsOf Survivor.byId kept
      byContents := positionsOf Survivor.byContents kept })

/-- Folds the duplicates of a store. -/
def Store.foldDuplicates (store : Store) : Store × Duplicates :=
  let (catalog, duplicates) := store.catalog.foldDuplicates
  ({ store with catalog, fresh := store.fresh && duplicates.isEmpty }, duplicates)

/-! ## Remarks -/

/-- The remarks on folded duplicates, under the name of a file.  A verbose
run lists the survivors. -/
def Catalog.duplicateRemarks (catalog : Catalog) (duplicates : Duplicates) (file : Path)
    (verbose : Bool) : List Remark :=
  if duplicates.isEmpty then []
  else if !verbose then [.duplicatesDropped file.text]
  else
    .duplicatesListed file.text
      :: ((duplicates.byId.filterMap (catalog.entries[·]?)).map fun e => .foldedById e.id)
      ++ (duplicates.byContents.filterMap (catalog.entries[·]?)).map fun e =>
        .foldedByContents e.context e.source e.comment e.catalogLine

end MessageCatalog
