/-
# `MessageCatalog.Catalog.Merge` — joining catalogs

An entry is brought into a store in one of two ways.  `Store.replace` puts it
in the place of the entry that it matches: the later one wins.
`Store.extend` adds to that entry what a scan of the sources found, a
reference and an extra comment, and refuses to do so when the two contradict
each other.
-/
import MessageCatalog.Catalog.Sorted
import MessageCatalog.Remark
import MessageCatalog.Text.Split

namespace MessageCatalog

/-! ## Replacing -/

/-- Puts an entry in the place of the one that it matches, or inserts it
where it belongs by its line. -/
def Store.replace (store : Store) (entry : Entry) : Store :=
  match store.find entry with
  | (none, store) => store.insertSorted entry
  | (some position, store) =>
    match store.entries[position]? with
    | none => store
    | some replaced =>
      { store.withEntries (store.entries.set position entry) with
        index := (store.index.remove replaced).put position entry }

/-- Brings the entries of other catalogs into a store.  The store goes on with
the index that it has. -/
def Store.merge (base : Store) (others : List Catalog) : Store :=
  (others.flatMap Catalog.entries).foldl Store.replace base

/-- Brings the entries of other catalogs into a catalog that was not looked up
yet. -/
def Catalog.merge (base : Catalog) (others : List Catalog) : Catalog :=
  ((Store.ofCatalog base).merge others).catalog

/-! ## Extending -/

/-- What separates the blocks of an extra comment. -/
def commentSeparator : String := "\n----------\n"

namespace Entry

/-- The extra comment with one more block, which it may already have. -/
def joinedComment (known added : String) : String :=
  if added.isEmpty then known
  else if known.isEmpty then added
  else if (blocks commentSeparator known).contains added then known
  else known ++ commentSeparator ++ added

/-- The entry with the source text of another one, if it has none. -/
def withSourceOf (entry incoming : Entry) : Entry :=
  if entry.source.isEmpty then { entry with source := incoming.source } else entry

/-- The two entries have different source texts. -/
def contradictsSource (entry incoming : Entry) : Bool :=
  !entry.source.isEmpty && !incoming.source.isEmpty && entry.source != incoming.source

/-- The two entries have different extension values. -/
def contradictsData (entry incoming : Entry) : Bool :=
  !entry.extras.isEmpty && !incoming.extras.isEmpty && entry.extras != incoming.extras

/-- The entry with what another one adds to it. -/
def joined (entry incoming : Entry) : Entry :=
  let entry := entry.withSourceOf incoming
  let entry := { entry with
    extras := if entry.extras.isEmpty then incoming.extras else entry.extras }
  let entry := match incoming.file with
    | some file => entry.addNewReference ⟨file, incoming.line⟩
    | none => entry
  { entry with extraComment := joinedComment entry.extraComment incoming.extraComment }

/-- The entry extended by another one that matches it, and what is to be
said about that. -/
def extend (entry incoming : Entry) : Entry × Option Remark :=
  if entry.contradictsSource incoming then (entry, some (.contradictingSource entry.id))
  else if entry.contradictsData incoming then
    (entry.withSourceOf incoming,
      some (if entry.id.isEmpty then .contradictingData incoming.label
        else .contradictingDataOfId entry.id))
  else (entry.joined incoming, none)

end Entry

/-- Extends the entry that an incoming one matches, or appends the incoming
one. -/
def Store.extend (store : Store) (incoming : Entry) : Store × Option Remark :=
  match store.find incoming with
  | (none, store) => (store.append incoming, none)
  | (some position, store) =>
    match store.entries[position]? with
    | none => (store, none)
    | some entry =>
      let (extended, remark) := entry.extend incoming
      let index :=
        if entry.source.isEmpty then
          (store.index.remove entry).put position (entry.withSourceOf incoming)
        else store.index
      ({ store.withEntries (store.entries.set position extended) with index }, remark)

end MessageCatalog
