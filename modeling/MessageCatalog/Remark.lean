/-
# `MessageCatalog.Remark` — what a run has to say

A catalog can be worked on although something about it is wrong: ids are
missing, plural forms have to be cut off, two sources contradict each
other.  Such findings do not end a run; they are remarked on.  A remark is
a problem, or information that only a talkative run shows.
-/

namespace MessageCatalog

/-- A finding that does not end a run. -/
inductive Remark where
  /-- An incoming entry has another source text than the one with its id. -/
  | contradictingSource (id : String)
  /-- An incoming entry has other extension values than the one it
  matches. -/
  | contradictingData (message : String)
  | contradictingDataOfId (id : String)
  /-- Duplicates were folded, and are not listed. -/
  | duplicatesDropped (file : String)
  /-- Duplicates were folded, and are listed behind this remark. -/
  | duplicatesListed (file : String)
  | foldedById (id : String)
  | foldedByContents (context source comment : String) (line : Int32)
  | formsRemoved
  | formsAdded (messages : Nat)
  | idsMissing (messages : Nat)
  | keyPartsDropped (messages : Nat)
  | tooManyContexts (contexts : Nat)
  | contextPoolTooLarge (contexts size : Nat)
  | keysIncomplete
  | languageUnknown (file : String)
  | languageGuessed (file code : String)
  | updating (file : String)
  | removingIdentical (file : String)
  | generated (finished unfinished : Nat)
  | ignored (messages : Nat)
  | decoded (messages : Nat) (language : String)
deriving DecidableEq, Repr

namespace Remark

/-- The remark tells of no problem. -/
def isInformation : Remark → Bool
  | languageGuessed .. | updating .. | removingIdentical .. | generated .. | ignored ..
  | decoded .. => true
  | _ => false

/-- The lines on an entry that took in another one with its contents. -/
def foldedLines (context source comment : String) (line : Int32) : String :=
  "* Context: " ++ context ++ "\n* Source: " ++ source
    ++ (if comment.isEmpty then "" else "\n* Comment: " ++ comment)
    ++ (if 0 ≤ line then "\n* Line in .ts File: " ++ toString line.toInt else "")

/-- The text of a remark. -/
def text : Remark → String
  | contradictingSource id => "Contradicting source strings for message with id '" ++ id ++ "'."
  | contradictingData message => "Contradicting meta data for message '" ++ message ++ "'."
  | contradictingDataOfId id => "Contradicting meta data for message with id '" ++ id ++ "'."
  | duplicatesDropped file =>
    "Warning: dropping duplicate messages in '" ++ file ++ "'\n(try --verbose for more info)."
  | duplicatesListed file => "Warning: dropping duplicate messages in '" ++ file ++ "':"
  | foldedById id => "* ID: " ++ id
  | foldedByContents context source comment line => foldedLines context source comment line
  | formsRemoved =>
    "Removed plural forms as the target language has less forms.\n"
      ++ "If this sounds wrong, possibly the target language is not set or recognized."
  | formsAdded messages =>
    "Added empty plural forms to " ++ toString messages
      ++ " message(s) as the target language has more forms."
  | idsMissing messages => "Dropped " ++ toString messages ++ " message(s) which had no ID."
  | keyPartsDropped messages =>
    "Excess context/disambiguation dropped from " ++ toString messages ++ " message(s)."
  | tooManyContexts contexts =>
    "Too many contexts (" ++ toString contexts ++ "): the context table was dropped."
  | contextPoolTooLarge contexts size =>
    "Too many contexts (" ++ toString contexts ++ "): the context pool needs " ++ toString size
      ++ " bytes, more than 131072. The context table was dropped."
  | keysIncomplete =>
    "Catalog was compiled in stripped mode; omitted context, source text and "
      ++ "comment fields cannot be restored."
  | languageUnknown file =>
    "No target language set for '" ++ file ++ "'; plural forms cannot be checked."
  | languageGuessed file code =>
    "Target language of '" ++ file ++ "' guessed as '" ++ code ++ "'"
  | updating file => "Updating '" ++ file ++ "'..."
  | removingIdentical file =>
    "Removing translations equal to source text in '" ++ file ++ "'..."
  | generated finished unfinished =>
    "Generated " ++ toString (finished + unfinished) ++ " translation(s) (" ++ toString finished
      ++ " finished and " ++ toString unfinished ++ " unfinished)"
  | ignored messages => "Ignored " ++ toString messages ++ " untranslated source text(s)"
  | decoded messages language =>
    "Decoded " ++ toString messages ++ " message(s) for language '" ++ language ++ "'"

end Remark

end MessageCatalog
