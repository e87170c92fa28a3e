/-
# `MessageCatalog.Text.Hex` — hexadecimal digits

Digits are written in lower case and read in either case.
-/

namespace MessageCatalog.Hex

/-- The digit of a number below sixteen. -/
def digit (n : Nat) : Char := if n < 10 then Char.ofNat (48 + n) else Char.ofNat (87 + n)

/-- The number of a digit. -/
def value? (c : Char) : Option Nat :=
  if '0' ≤ c ∧ c ≤ '9' then some (c.toNat - 48)
  else if 'a' ≤ c ∧ c ≤ 'f' then some (c.toNat - 87)
  else if 'A' ≤ c ∧ c ≤ 'F' then some (c.toNat - 55)
  else none

/-- A digit that was written is read as its number. -/
theorem value?_digit : ∀ n, n < 16 → value? (digit n) = some n := by decide

/-- A byte with its base, as messages show it: `0x05`. -/
def byte (b : UInt8) : String :=
  String.ofList ['0', 'x', digit (b.toNat / 16), digit (b.toNat % 16)]

end MessageCatalog.Hex
