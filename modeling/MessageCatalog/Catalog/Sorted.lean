/-
# `MessageCatalog.Catalog.Sorted` — where an entry belongs by its line

A new entry is placed among entries of its own file and context.  Such
entries form runs, in which the lines ascend.  The new entry may fall inside
of a run or stand before or behind it; inside is better than beside, and of
two runs with the same fit the longer one is better.

`Scan` goes once over the entries.  It knows the best run behind it and the
run it is in: where the new entry would stand, how well it fits there, and
how many entries the run has.
-/
import MessageCatalog.Catalog.Store

namespace MessageCatalog

/-- Two optional file names are the same. -/
def sameFile : Option Path → Option Path → Bool
  | some a, some b => a.same b
  | none, none => true
  | _, _ => false

/-- How a new entry fits a run. -/
structure Fit where
  /-- The position of the new entry. -/
  position : Nat := 0
  /-- 0 without a position, 1 beside the run, 2 inside of it. -/
  score : Nat := 0
  /-- The number of entries of the run. -/
  size : Nat := 0
deriving DecidableEq, Inhabited, Repr

/-- A fit is better than another one. -/
def Fit.beats (a b : Fit) : Bool :=
  b.score < a.score || (a.score == b.score && b.size < a.size)

/-- What is known after some entries. -/
structure Scan where
  best : Fit := {}
  current : Fit := {}
  /-- The line of the last entry of the current run. -/
  previous : Int32 := 0
deriving DecidableEq, Inhabited, Repr

namespace Scan

/-- Goes over the entry at a position. -/
def step (wanted : Entry) (scan : Scan) (position : Nat) (entry : Entry) : Scan :=
  let related := sameFile entry.file wanted.file && entry.context == wanted.context
  let current := scan.current
  if related && decide (scan.previous ≤ entry.line) then
    let current :=
      if scan.previous ≤ wanted.line ∧ wanted.line < entry.line then
        { current with position, score := if 0 < current.size then 2 else 1 }
      else current
    { scan with
      current := { current with size := current.size + 1 }
      previous := entry.line }
  else if 0 < current.size then
    let ended := if current.score = 0 then { current with position, score := 1 } else current
    { best := if ended.beats scan.best then ended else scan.best
      current := { ended with score := 0, size := if related then 1 else 0 }
      previous := 0 }
  else scan

/-- Goes over some entries from a position on. -/
def run (wanted : Entry) (scan : Scan) (position : Nat) : List Entry → Scan
  | [] => scan
  | entry :: rest => run wanted (scan.step wanted position entry) (position + 1) rest

/-- The run that was read last, after the last entry. -/
def last (scan : Scan) (length : Nat) : Fit :=
  if 0 < scan.current.size ∧ scan.current.score = 0 then
    { scan.current with position := length, score := 1 }
  else scan.current

/-- The position for the new entry; without any run that is the end. -/
def position (scan : Scan) (length : Nat) : Nat :=
  let last := scan.last length
  if last.beats scan.best then last.position
  else if 0 < scan.best.score then scan.best.position
  else length

end Scan

/-- The position of a new entry among some entries.  An entry without a line
belongs to the end. -/
def sortedPosition (entries : List Entry) (entry : Entry) : Nat :=
  if entry.line < 0 then entries.length
  else (Scan.run entry {} 0 entries).position entries.length

/-- Inserts an entry where it belongs by its line. -/
def Store.insertSorted (store : Store) (entry : Entry) : Store :=
  store.insert (sortedPosition store.entries entry) entry

end MessageCatalog
