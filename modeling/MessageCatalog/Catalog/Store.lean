/-
# `MessageCatalog.Catalog.Store` — a catalog that is looked up

A store keeps an index beside its catalog.  An operation that shifts entries
marks the index as stale, and the next look-up builds it anew; an operation
that does not shift any keeps it up.  Some operations change entries in
place and leave the index as it is, so a look-up may still find an entry
under the key it had before.
-/
import MessageCatalog.Catalog.Index

namespace MessageCatalog

/-- A catalog with its index. -/
structure Store where
  catalog : Catalog := {}
  index : Index := {}
  /-- The index need not be built anew before the next look-up. -/
  fresh : Bool := false
deriving DecidableEq, Inhabited

namespace Store

/-- The store of a catalog. -/
def ofCatalog (catalog : Catalog) : Store := { catalog }

/-- The entries of a store. -/
def entries (store : Store) : List Entry := store.catalog.entries

/-- The store with a fresh index. -/
def refreshed (store : Store) : Store :=
  if store.fresh then store
  else { store with index := .of store.entries, fresh := true }

theorem fresh_refreshed (store : Store) : store.refreshed.fresh = true := by
  unfold refreshed
  split
  · next h => exact h
  · rfl

theorem entries_refreshed (store : Store) : store.refreshed.entries = store.entries := by
  unfold refreshed
  split
  · rfl
  · rfl

/-- The store with other entries, and the rest as it is. -/
def withEntries (store : Store) (entries : List Entry) : Store :=
  { store with catalog := { store.catalog with entries } }

/-- The store with another catalog; the index is left as it is. -/
def update (change : Catalog → Catalog) (store : Store) : Store :=
  { store with catalog := change store.catalog }

/-- The store with arbitrarily changed entries. -/
def edit (change : List Entry → List Entry) (store : Store) : Store :=
  { store.withEntries (change store.entries) with fresh := false }

/-! ## Looking up -/

/-- The position of the entry that matches another one, in a fresh index.
An id counts first.  An id that is not known matches the same contents only
where they have no id of their own. -/
def locate (store : Store) (entry : Entry) : Option Nat :=
  let byContent := store.index.ofContent? entry.contentKey
  if entry.id.isEmpty then byContent
  else
    match store.index.ofId? entry.id with
    | some position => some position
    | none => byContent.filter fun position => (store.entries[position]?).any fun e => e.id.isEmpty

/-- Looks up the entry that matches another one. -/
def find (store : Store) (entry : Entry) : Option Nat × Store :=
  (store.refreshed.locate entry, store.refreshed)

/-- Looks up an id. -/
def findId (store : Store) (id : String) : Option Nat × Store :=
  (store.refreshed.index.ofId? id, store.refreshed)

/-- Looks up the placeholder of a context. -/
def findContext (store : Store) (context : String) : Option Nat × Store :=
  (store.refreshed.index.ofContext? context, store.refreshed)

/-! ## Changing -/

/-- Inserts an entry at a position, at most at the end. -/
def insert (store : Store) (position : Nat) (entry : Entry) : Store :=
  let position := min position store.entries.length
  let inserted := store.withEntries (store.entries.insertIdx position entry)
  if store.fresh && position == store.entries.length then
    { inserted with index := store.index.put position entry }
  else { inserted with fresh := false }

/-- Appends an entry. -/
def append (store : Store) (entry : Entry) : Store := store.insert store.entries.length entry

/-- Drops the entries of a class. -/
def strip (drops : Entry → Bool) (store : Store) : Store :=
  if store.entries.any drops then { store.update (Catalog.strip drops) with fresh := false }
  else store

end Store

end MessageCatalog
