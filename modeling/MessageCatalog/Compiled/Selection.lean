/-
# `MessageCatalog.Compiled.Selection` — which entries are stored, and how

Compiling a catalog first decides about every entry: whether it is stored,
under what key and with what translations.  Retired entries never are; the
options decide about entries without an id and about unfinished ones.  An
entry whose key is already taken is left out.
-/
import MessageCatalog.Catalog.Basic
import MessageCatalog.Compiled.Record

namespace MessageCatalog.Compiled

/-! ## Options -/

/-- How much of the keys is written. -/
inductive SaveMode where
  /-- All of every key. -/
  | everything
  /-- What tells a record from its neighbours. -/
  | stripped
deriving DecidableEq, Repr

/-- How a catalog is compiled. -/
structure Options where
  /-- Messages are found by their ids. -/
  idBased : Bool := false
  /-- What is written in front of source texts in place of missing
  translations. -/
  untranslatedPrefix : Option String := none
  ignoreUnfinished : Bool := false
  saveMode : SaveMode := .everything
  /-- Comments are left out of the keys that are unambiguous without. -/
  squeezeComments : Bool := false
deriving DecidableEq, Inhabited, Repr

namespace Options

/-- The mark in front of source texts, which may be empty. -/
def mark (options : Options) : String := options.untranslatedPrefix.getD ""

/-- Missing translations of unfinished entries are filled in. -/
def fillsIn (options : Options) : Bool := options.idBased || !options.mark.isEmpty

end Options

/-! ## Decisions -/

/-- What becomes of an entry. -/
inductive Fate where
  /-- It is kept for editing only. -/
  | retired
  | idMissing
  | untranslated
  /-- It is unfinished, and those are ignored. -/
  | leftOut
  | unfinished
  | finished
deriving DecidableEq, Repr

/-- The entry has a place among the records. -/
def Fate.isStored : Fate → Bool
  | unfinished | finished => true
  | _ => false

/-- What becomes of an entry under some options. -/
def Options.fate (options : Options) (entry : Entry) : Fate :=
  if entry.state.isRetired then .retired
  else if options.idBased && entry.id.isEmpty then .idMissing
  else if entry.state = .unfinished then
    if entry.translation.isEmpty && !options.fillsIn then .untranslated
    else if options.ignoreUnfinished then .leftOut
    else .unfinished
  else .finished

/-- The translations that are stored for an entry. -/
def Options.translationsOf (options : Options) (entry : Entry) : List String :=
  if entry.state = .unfinished && options.fillsIn then
    entry.translations.map fun t => if t.isEmpty then options.mark ++ entry.source else t
  else entry.translations

/-! ## Records -/

/-- The translations under every key, the latest key first. -/
abbrev Records := List (Key × List String)

namespace Records

/-- A key is taken. -/
def has (records : Records) (key : Key) : Bool := records.any fun known => known.1 == key

/-- Stores translations under a key, unless it is taken. -/
def add (records : Records) (key : Key) (translations : List String) : Records :=
  if records.has key then records else (key, translations) :: records

end Records

/-- The full key of an entry. -/
def fullKey (entry : Entry) : Key := ⟨entry.context, entry.source, entry.comment⟩

/-- The key of an entry without its comment. -/
def squeezedKey (entry : Entry) : Key := ⟨entry.context, entry.source, ""⟩

/-- The key of an entry that is found by its id. -/
def idKey (entry : Entry) : Key := ⟨"", entry.id, ""⟩

/-- Some entry of a catalog has the context and the source text of another
one, and no comment. -/
def hasCommentless (catalog : Catalog) (entry : Entry) : Bool :=
  catalog.entries.any fun e =>
    e.comment.isEmpty && e.context == entry.context && e.source == entry.source

/-- The comment of an entry has to be part of its key. -/
def keepsComment (options : Options) (catalog : Catalog) (entry : Entry) : Bool :=
  !options.squeezeComments || entry.comment.isEmpty || entry.context.isEmpty
    || hasCommentless catalog entry

/-- Stores an entry. -/
def storeEntry (options : Options) (catalog : Catalog) (records : Records) (entry : Entry) :
    Records :=
  let translations := options.translationsOf entry
  if options.idBased then records.add (idKey entry) translations
  else if !keepsComment options catalog entry && !records.has (squeezedKey entry) then
    records.add (squeezedKey entry) translations
  else records.add (fullKey entry) translations

/-- The entries of a catalog that are stored. -/
def storedEntries (options : Options) (catalog : Catalog) : List Entry :=
  catalog.entries.filter fun entry => (options.fate entry).isStored

/-- The records of a catalog, as they come. -/
def collect (options : Options) (catalog : Catalog) : Records :=
  (storedEntries options catalog).foldl (storeEntry options catalog) []

/-- The records of a catalog in the order they are written. -/
def sortedRecords (options : Options) (catalog : Catalog) : Records :=
  (collect options catalog).mergeSort fun a b => (Key.order a.1 b.1).isLE

/-! ## Statistics -/

/-- How many entries met which fate. -/
structure Statistics where
  finished : Nat := 0
  unfinished : Nat := 0
  untranslated : Nat := 0
  idsMissing : Nat := 0
  /-- Stored entries whose context or comment did not become part of the
  key. -/
  keyPartsDropped : Nat := 0
deriving DecidableEq, Inhabited, Repr

/-- A stored entry that is found by its id loses its context or comment. -/
def losesKeyParts (entry : Entry) : Bool := !entry.context.isEmpty || !entry.comment.isEmpty

/-- The statistics of compiling a catalog. -/
def statistics (options : Options) (catalog : Catalog) : Statistics :=
  let count (fate : Fate) : Nat := catalog.entries.countP fun entry => options.fate entry == fate
  { finished := count .finished
    unfinished := count .unfinished
    untranslated := count .untranslated
    idsMissing := count .idMissing
    keyPartsDropped :=
      if options.idBased then (storedEntries options catalog).countP losesKeyParts else 0 }

end MessageCatalog.Compiled
