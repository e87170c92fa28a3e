/-
# `MessageCatalog.Catalog.Index` — positions of entries

An index gives the position of an entry for its contents, for its id and,
for placeholders, for its context.  It is derived from a sequence of entries,
and it is kept up entry by entry.  Of several entries with one key the index
knows the last one that was put in; taking out an entry forgets its keys,
whichever entry they led to.
-/
import MessageCatalog.Catalog.Basic

namespace MessageCatalog

/-- What identifies an entry without an id. -/
structure ContentKey where
  context : String
  source : String
  comment : String
deriving DecidableEq, Repr

/-- The content key of an entry. -/
def Entry.contentKey (entry : Entry) : ContentKey :=
  ⟨entry.context, entry.source, entry.comment⟩

/-- Positions by content, by id and, for placeholders, by context.  Of
several positions of a key the first one counts. -/
structure Index where
  byContent : List (ContentKey × Nat) := []
  byId : List (String × Nat) := []
  byContext : List (String × Nat) := []
deriving DecidableEq, Inhabited

namespace Index

/-- Forgets a key. -/
def forget {α : Type} [DecidableEq α] (key : α) (positions : List (α × Nat)) : List (α × Nat) :=
  positions.filter fun known => known.1 ≠ key

/-- Puts in an entry. -/
def put (index : Index) (position : Nat) (entry : Entry) : Index :=
  if entry.isPlaceholder then
    { index with byContext := (entry.context, position) :: index.byContext }
  else
    { index with
      byContent := (entry.contentKey, position) :: index.byContent
      byId := if entry.id.isEmpty then index.byId else (entry.id, position) :: index.byId }

/-- Takes out an entry. -/
def remove (index : Index) (entry : Entry) : Index :=
  if entry.isPlaceholder then { index with byContext := forget entry.context index.byContext }
  else
    { index with
      byContent := forget entry.contentKey index.byContent
      byId := if entry.id.isEmpty then index.byId else forget entry.id index.byId }

/-- Puts in some entries from a position on. -/
def putAll (index : Index) (position : Nat) : List Entry → Index
  | [] => index
  | entry :: rest => putAll (index.put position entry) (position + 1) rest

/-- The index of a sequence of entries. -/
def of (entries : List Entry) : Index := putAll {} 0 entries

/-- The position of some contents. -/
def ofContent? (index : Index) (key : ContentKey) : Option Nat := index.byContent.lookup key

/-- The position of an id. -/
def ofId? (index : Index) (id : String) : Option Nat := index.byId.lookup id

/-- The position of the placeholder of a context. -/
def ofContext? (index : Index) (context : String) : Option Nat := index.byContext.lookup context

end Index

end MessageCatalog
