/-
# `MessageCatalog.Path` — file names

A path keeps the text it was given.  What it names is read off its
components: separators may be repeated or trail, and a `.` counts only at
the very front.  Two paths are the same when their components are.
-/

namespace MessageCatalog

/-- A file name, as it was given. -/
structure Path where
  text : String
deriving DecidableEq, Inhabited, Repr

namespace Path

/-! ## Components -/

/-- The pieces of a text between slashes.  `piece` holds the piece being
read, last character first. -/
def segmentsFrom (piece : List Char) : List Char → List (List Char)
  | [] => [piece.reverse]
  | c :: rest =>
    if c = '/' then piece.reverse :: segmentsFrom [] rest else segmentsFrom (c :: piece) rest

/-- The pieces of the path between slashes. -/
def segments (path : Path) : List (List Char) := segmentsFrom [] path.text.toList

/-- A piece that leads nowhere: nothing at all, or a single dot. -/
def isIdle (segment : List Char) : Bool := segment == [] || segment == ['.']

/-- One step of a path. -/
inductive Component where
  /-- The root of the file system. -/
  | root
  /-- The directory one is in, written out at the front. -/
  | here
  /-- The directory above. -/
  | parent
  /-- An entry of a directory. -/
  | entry (name : String)
deriving DecidableEq, Repr

/-- The path starts at the root. -/
def isAbsolute (path : Path) : Bool := path.text.toList.head? == some '/'

/-- The first step of a path, when it is the root or a written-out dot. -/
def leadingComponent (path : Path) : List Component :=
  if path.isAbsolute then [.root]
  else if path.segments.head? == some ['.'] then [.here]
  else []

/-- The steps of a path. -/
def components (path : Path) : List Component :=
  path.leadingComponent ++ (path.segments.filter fun s => !isIdle s).map fun segment =>
    if segment = ['.', '.'] then .parent else .entry (String.ofList segment)

/-- Two paths take the same steps. -/
def same (a b : Path) : Bool := a.components == b.components

/-! ## Joining -/

/-- The path as seen from the directory `base`. -/
def join (base path : Path) : Path :=
  if path.isAbsolute then path
  else if base.text.isEmpty || base.text.toList.getLast? == some '/' then ⟨base.text ++ path.text⟩
  else ⟨base.text ++ "/" ++ path.text⟩

/-! ## The last name -/

/-- A name cut at its last dot, unless there is nothing in front of that
dot. -/
def splitName (name : List Char) : List Char × Option (List Char) :=
  let extension := (name.reverse.takeWhile (· ≠ '.')).reverse
  let stem := name.take (name.length - extension.length - 1)
  if stem = [] then (name, none) else (stem, some extension)

/-- The last step of a path, when it is the name of an entry, and the
pieces in front of it. -/
def lastName? (path : Path) : Option (List (List Char) × List Char) :=
  match path.segments.reverse.dropWhile isIdle with
  | [] => none
  | name :: before => if name = ['.', '.'] then none else some (before.reverse, name)

/-- The last name without its extension. -/
def fileStem? (path : Path) : Option (List Char) :=
  path.lastName?.map fun (_, name) => (splitName name).1

/-- Nothing follows the last name of the path, not even a separator. -/
def endsInName (path : Path) : Bool := !path.segments.getLast?.any isIdle

/-- The path with another extension on its last name.  What follows the
name is dropped; a path without a last name stays as it is.  The extension
that the name had is taken off first.  When this leaves two dots at the end
of the path, they lead to the directory above, which takes no extension. -/
def withExtension (path : Path) (extension : String) : Path :=
  match path.lastName? with
  | none => path
  | some (before, name) =>
    let stem := (splitName name).1
    let bare := String.ofList ((before ++ [stem]).intersperse ['/']).flatten ++ "."
    if stem = ['.'] && path.endsInName then ⟨bare⟩ else ⟨bare ++ extension⟩

end Path

end MessageCatalog
