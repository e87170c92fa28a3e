/-
# `MessageCatalog.Diagnostics` — collected remarks

The messages of a run in the order they came.  Information is kept only
while the collection is verbose.
-/
import MessageCatalog.Remark

namespace MessageCatalog

/-- The messages of a run. -/
structure Diagnostics where
  messages : List String := []
  /-- Information is kept, too. -/
  verbose : Bool := false
deriving DecidableEq, Inhabited, Repr

namespace Diagnostics

/-- Keeps the message of a problem. -/
def report (diagnostics : Diagnostics) (message : String) : Diagnostics :=
  { diagnostics with messages := diagnostics.messages ++ [message] }

/-- Keeps a message that informs, if the collection is verbose. -/
def inform (diagnostics : Diagnostics) (message : String) : Diagnostics :=
  if diagnostics.verbose then diagnostics.report message else diagnostics

/-- Keeps a remark as what it is. -/
def add (diagnostics : Diagnostics) (remark : Remark) : Diagnostics :=
  if remark.isInformation then diagnostics.inform remark.text
  else diagnostics.report remark.text

/-- Keeps some remarks, in their order. -/
def addAll (diagnostics : Diagnostics) (remarks : List Remark) : Diagnostics :=
  remarks.foldl add diagnostics

/-- All messages, each on lines of its own. -/
def text (diagnostics : Diagnostics) : String :=
  if diagnostics.messages.isEmpty then ""
  else "\n".intercalate diagnostics.messages ++ "\n"

/-- Forgets the messages. -/
def clear (diagnostics : Diagnostics) : Diagnostics := { diagnostics with messages := [] }

end Diagnostics

end MessageCatalog
