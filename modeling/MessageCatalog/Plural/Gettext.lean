/-
# `MessageCatalog.Plural.Gettext` — the plural header of gettext catalogs

A gettext catalog says in its header how it chooses a plural form:

    nplurals=3; plural=(n==1 ? 0 : n==2 ? 1 : 2);

The second part is an expression in the count `n`, read as in C: remainders
bind strongest, then come order comparisons, equality, conjunction and
disjunction, all from the left, and last the conditional, from the right.
Truth is one, falsity is zero, and any other number counts as true.

An expression is read in two steps, into tokens and then into a tree.  A
header gives the rules of a row in other words, so that its value can be
compared with what the program of the row selects.
-/
import MessageCatalog.Plural.Table

namespace MessageCatalog.Plural.Gettext

/-! ## Expressions -/

/-- An operation on two numbers. -/
inductive Operation where
  | disjunction
  | conjunction
  | equal
  | different
  | below
  | above
  | atMost
  | atLeast
  | remainder
deriving DecidableEq, Repr

/-- How strongly an operation binds. -/
def Operation.strength : Operation → Nat
  | disjunction => 0
  | conjunction => 1
  | equal | different => 2
  | below | above | atMost | atLeast => 3
  | remainder => 4

/-- The value of an operation. -/
def Operation.apply : Operation → Nat → Nat → Nat
  | disjunction, a, b => (a != 0 || b != 0).toNat
  | conjunction, a, b => (a != 0 && b != 0).toNat
  | equal, a, b => (a == b).toNat
  | different, a, b => (a != b).toNat
  | below, a, b => (decide (a < b)).toNat
  | above, a, b => (decide (b < a)).toNat
  | atMost, a, b => (decide (a ≤ b)).toNat
  | atLeast, a, b => (decide (b ≤ a)).toNat
  | remainder, a, b => a % b

/-- An expression in the count. -/
inductive Expression where
  | count
  | literal (value : Nat)
  | binary (operation : Operation) (left right : Expression)
  | conditional (condition yes no : Expression)
deriving DecidableEq, Repr

/-- The value of an expression for a count. -/
def Expression.eval (n : Nat) : Expression → Nat
  | count => n
  | literal value => value
  | binary operation left right => operation.apply (left.eval n) (right.eval n)
  | conditional condition yes no => if condition.eval n ≠ 0 then yes.eval n else no.eval n

/-! ## Tokens -/

/-- The smallest parts of an expression. -/
inductive Token where
  | count
  | literal (value : Nat)
  | operation (operation : Operation)
  | question
  | colon
  | opening
  | closing
deriving DecidableEq, Repr

/-- Puts a number that has been read in front of some tokens. -/
def withNumber (number : Option Nat) (tokens : List Token) : List Token :=
  (number.map Token.literal).toList ++ tokens

/-- The tokens of an expression.  `number` is the number whose digits are
being read. -/
def tokensFrom (number : Option Nat) : List Char → Option (List Token)
  | [] => some (withNumber number [])
  | '|' :: '|' :: rest => (tokensFrom none rest).map (ended (.operation .disjunction))
  | '&' :: '&' :: rest => (tokensFrom none rest).map (ended (.operation .conjunction))
  | '=' :: '=' :: rest => (tokensFrom none rest).map (ended (.operation .equal))
  | '!' :: '=' :: rest => (tokensFrom none rest).map (ended (.operation .different))
  | '<' :: '=' :: rest => (tokensFrom none rest).map (ended (.operation .atMost))
  | '>' :: '=' :: rest => (tokensFrom none rest).map (ended (.operation .atLeast))
  | '<' :: rest => (tokensFrom none rest).map (ended (.operation .below))
  | '>' :: rest => (tokensFrom none rest).map (ended (.operation .above))
  | '%' :: rest => (tokensFrom none rest).map (ended (.operation .remainder))
  | '?' :: rest => (tokensFrom none rest).map (ended .question)
  | ':' :: rest => (tokensFrom none rest).map (ended .colon)
  | '(' :: rest => (tokensFrom none rest).map (ended .opening)
  | ')' :: rest => (tokensFrom none rest).map (ended .closing)
  | 'n' :: rest => (tokensFrom none rest).map (ended .count)
  | ' ' :: rest => (tokensFrom none rest).map (withNumber number)
  | c :: rest =>
    if c.isDigit then tokensFrom (some (number.getD 0 * 10 + (c.toNat - 48))) rest else none
where
  /-- Ends the number that was being read with a token. -/
  ended (token : Token) (tokens : List Token) : List Token := withNumber number (token :: tokens)

/-! ## Trees -/

mutual

/-- Reads an expression; `fuel` bounds the depth of the calls. -/
def readExpression : Nat → List Token → Option (Expression × List Token)
  | 0, _ => none
  | fuel + 1, tokens =>
    match readBinary fuel 0 tokens with
    | some (condition, .question :: rest) =>
      match readExpression fuel rest with
      | some (yes, .colon :: rest) =>
        (readExpression fuel rest).map fun (no, rest) => (.conditional condition yes no, rest)
      | _ => none
    | result => result

/-- Reads operations that bind at least as strongly as `strength`. -/
def readBinary : Nat → Nat → List Token → Option (Expression × List Token)
  | 0, _, _ => none
  | fuel + 1, strength, tokens =>
    if 4 < strength then readOperand fuel tokens
    else
      match readBinary fuel (strength + 1) tokens with
      | some (left, rest) => readMore fuel strength left rest
      | none => none

/-- Reads what is joined to a left operand by operations of a strength. -/
def readMore : Nat → Nat → Expression → List Token → Option (Expression × List Token)
  | 0, _, _, _ => none
  | fuel + 1, strength, left, .operation operation :: rest =>
    if operation.strength = strength then
      match readBinary fuel (strength + 1) rest with
      | some (right, rest) => readMore fuel strength (.binary operation left right) rest
      | none => none
    else some (left, .operation operation :: rest)
  | _ + 1, _, left, rest => some (left, rest)

/-- Reads the count, a number or an expression in parentheses. -/
def readOperand : Nat → List Token → Option (Expression × List Token)
  | _ + 1, .count :: rest => some (.count, rest)
  | _ + 1, .literal value :: rest => some (.literal value, rest)
  | fuel + 1, .opening :: rest =>
    match readExpression fuel rest with
    | some (inner, .closing :: rest) => some (inner, rest)
    | _ => none
  | _, _ => none

end

/-- The expression that a text writes.  No token takes more than eight
nested calls, which is what an opening parenthesis takes. -/
def Expression.parse? (text : List Char) : Option Expression :=
  match tokensFrom none text with
  | some tokens =>
    match readExpression (8 * tokens.length + 8) tokens with
    | some (expression, []) => some expression
    | _ => none
  | none => none

/-! ## Headers -/

/-- A plural header. -/
structure Header where
  /-- The number of forms. -/
  forms : Nat
  /-- The form of a count. -/
  plural : Expression
deriving DecidableEq, Repr

/-- The value that a part of a header gives to a name. -/
def assigned? (name : String) (part : List Char) : Option (List Char) :=
  match splitFirst? (· == '=') part with
  | some (front, value) => if trimBlank front = name.toList then some value else none
  | none => none

/-- The header that some characters write. -/
def Header.ofChars? (text : List Char) : Option Header :=
  match splitFirst? (· == ';') text with
  | some (first, rest) =>
    match splitFirst? (· == ';') rest with
    | some (second, []) => do
      let forms ← Expression.parse? (← assigned? "nplurals" first)
      let plural ← Expression.parse? (← assigned? "plural" second)
      match forms with
      | .literal forms => some { forms, plural }
      | _ => none
    | _ => none
  | none => none

/-- The header that a text writes. -/
def Header.parse? (text : String) : Option Header := ofChars? text.toList

/-- The form that a header selects for a count. -/
def Header.select (header : Header) (n : Nat) : Nat := header.plural.eval n

end MessageCatalog.Plural.Gettext
