/-
# `MessageCatalog.Text.Split` — cutting texts

Three ways to look inside a text: cut it in two at the first character of a
class, cut it into blocks at every occurrence of a separator, and ask
whether it contains another text.
-/

namespace MessageCatalog

/-- Cuts at the first character of the class, which belongs to neither
part. -/
def splitFirst? (isSeparator : Char → Bool) : List Char → Option (List Char × List Char)
  | [] => none
  | c :: rest =>
    if isSeparator c then some ([], rest)
    else (splitFirst? isSeparator rest).map fun (front, back) => (c :: front, back)

/-- The blocks of a text, cut at every occurrence of `separator` that does
not overlap an earlier one.  `block` holds the block being read, last
character first. -/
def blocksFrom (separator : List Char) (block : List Char) : List Char → List (List Char)
  | [] => [block.reverse]
  | c :: rest =>
    if separator.isPrefixOf (c :: rest) then
      block.reverse :: blocksFrom separator [] (rest.drop (separator.length - 1))
    else blocksFrom separator (c :: block) rest
termination_by text => text.length
decreasing_by
  · rw [List.length_cons, List.length_drop]
    omega
  · exact Nat.lt_succ_self rest.length

/-- The blocks of a text between the occurrences of a separator. -/
def blocks (separator text : String) : List String :=
  (blocksFrom separator.toList [] text.toList).map String.ofList

/-- The first text occurs somewhere in the second. -/
def occursIn (part : List Char) : List Char → Bool
  | [] => part.isEmpty
  | c :: rest => part.isPrefixOf (c :: rest) || occursIn part rest

end MessageCatalog
