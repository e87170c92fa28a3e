/-
# `MessageCatalog.FileSystem.Memory` — a tree of files in memory

A tree of files and directories, in which paths are resolved as an
operating system does it.  Relative paths start at the top of the tree.
Every step but the last one has to lead into a directory, and a path that
ends in a separator asks for a directory.  Above the top there are only
directories, and the root of the file system is one of them; nothing is in
them but what was written there.  Names and paths have a greatest length.
-/
import MessageCatalog.FileSystem.Basic

namespace MessageCatalog

/-! ## Places -/

/-- Where a place is counted from. -/
inductive Base where
  /-- The directory so many levels above the top of the tree; 0 is the top
  itself. -/
  | above (levels : Nat)
  /-- The root of the file system. -/
  | root
deriving DecidableEq, Repr

/-- A place for a file or a directory: the names that lead there. -/
structure Place where
  base : Base := .above 0
  names : List String := []
deriving DecidableEq, Repr

namespace Place

/-- The place is a directory that exists whatever the tree holds. -/
def isBase (place : Place) : Bool := place.names.isEmpty

/-- The place with a name in a directory. -/
def enter (place : Place) (name : String) : Place := { place with names := place.names ++ [name] }

/-- The directory above a place.  The root is above itself. -/
def parent (place : Place) : Place :=
  if place.isBase then
    match place.base with
    | .above levels => { base := .above (levels + 1) }
    | .root => { base := .root }
  else { place with names := place.names.dropLast }

end Place

/-! ## Trees -/

/-- What has a name. -/
inductive FileNode where
  | file (content : Bytes)
  | directory
deriving DecidableEq, Repr

/-- Files and directories by their places. -/
structure FileTree where
  nodes : List (Place × FileNode) := []
deriving DecidableEq, Inhabited, Repr

namespace FileTree

/-- What is at a place. -/
def node? (tree : FileTree) (place : Place) : Option FileNode :=
  if place.isBase then some .directory else tree.nodes.lookup place

/-- Puts something at a place. -/
def put (tree : FileTree) (place : Place) (node : FileNode) : FileTree :=
  ⟨(place, node) :: tree.nodes.filter fun known => known.1 ≠ place⟩

/-- Makes a directory below the top, and the directories above it. -/
def makeDirectory (tree : FileTree) (names : List String) : FileTree :=
  (List.range names.length).foldl (fun tree depth =>
    let place : Place := { names := names.take (depth + 1) }
    if (tree.node? place).isSome then tree else tree.put place .directory) tree

/-- Makes a file below the top, and the directories above it. -/
def makeFile (tree : FileTree) (names : List String) (content : Bytes) : FileTree :=
  (tree.makeDirectory names.dropLast).put { names } (.file content)

/-! ## Paths -/

/-- The greatest number of bytes in a name. -/
def nameLimit : Nat := 255

/-- The greatest number of bytes in a path. -/
def pathLimit : Nat := 4095

/-- Where a path leads. -/
inductive Target where
  | directory (place : Place)
  /-- A name in a directory that is no directory itself, and the bytes of
  the file that has it, or why there are none.  With a separator behind
  it, the name asks for a directory. -/
  | entry (place : Place) (content : Except FileFault Bytes) (asDirectory : Bool)

/-- What has a name in a directory. -/
def find (tree : FileTree) (directory : Place) (name : String) : Except FileFault FileNode :=
  if name.utf8ByteSize > nameLimit then .error .nameTooLong
  else
    match tree.node? (directory.enter name) with
    | some node => .ok node
    | none => .error .notFound

/-- Takes the steps of a path from a directory on. -/
def walk (tree : FileTree) (place : Place) : List (List Char) → Except FileFault Target
  | [] => .ok (.directory place)
  | step :: rest =>
    if Path.isIdle step then walk tree place rest
    else if step = ['.', '.'] then walk tree place.parent rest
    else
      let name := String.ofList step
      let next := place.enter name
      let isLast := rest.all List.isEmpty
      match tree.find place name with
      | .ok .directory => walk tree next rest
      | .ok (.file content) =>
        if isLast then .ok (.entry next (.ok content) !rest.isEmpty) else .error .notDirectory
      | .error fault =>
        if isLast then .ok (.entry next (.error fault) !rest.isEmpty) else .error fault

/-- Where a path leads. -/
def resolve (tree : FileTree) (path : Path) : Except FileFault Target :=
  if path.text.toList.contains '\x00' then .error .malformedName
  else if path.text.isEmpty then .error .notFound
  else if path.text.utf8ByteSize > pathLimit then .error .nameTooLong
  else tree.walk { base := if path.isAbsolute then .root else .above 0 } path.segments

/-! ## Files -/

/-- The bytes of a file. -/
def read (tree : FileTree) (path : Path) : Except FileFault Bytes :=
  match tree.resolve path with
  | .error fault => .error fault
  | .ok (.directory _) => .error .isDirectory
  | .ok (.entry _ (.error fault) _) => .error fault
  | .ok (.entry _ (.ok _) true) => .error .notDirectory
  | .ok (.entry _ (.ok content) false) => .ok content

/-- The tree with a file of some bytes.  No file is made where a directory
is asked for, whatever the name. -/
def write (tree : FileTree) (path : Path) (content : Bytes) : Except FileFault FileTree :=
  match tree.resolve path with
  | .error fault => .error fault
  | .ok (.directory _) | .ok (.entry _ _ true) => .error .isDirectory
  | .ok (.entry place (.ok _) false) | .ok (.entry place (.error .notFound) false) =>
    .ok (tree.put place (.file content))
  | .ok (.entry _ (.error fault) false) => .error fault

/-- A path leads to a file. -/
def isFile (tree : FileTree) (path : Path) : Bool :=
  match tree.read path with
  | .ok _ => true
  | .error _ => false

end FileTree

/-! ## Work on a tree -/

/-- Work on a tree of files. -/
abbrev InMemory := StateM FileTree

instance : FileSystem InMemory where
  readBytes path := do return (← get).read path
  writeBytes path content := do
    match (← get).write path content with
    | .error fault => return .error fault
    | .ok tree =>
      set tree
      return .ok ()
  isFile path := do return (← get).isFile path

end MessageCatalog
