/-
# `MessageCatalog.Bytes` — big-endian words and counted bytes

A compiled catalog is a sequence of bytes.  Numbers in it are written in
base 256, most significant digit first, in two or four digits; everything
of variable size is preceded by its length.  The readers of this module
take what they read from the front of a byte list and return it together
with the bytes that follow, so that formats compose by juxtaposition.
-/

namespace MessageCatalog

/-- A sequence of bytes. -/
abbrev Bytes := List UInt8

namespace Bytes

/-! ## Words -/

/-- The two digits of a 16-bit word. -/
def ofWord16 (w : UInt16) : Bytes :=
  [UInt8.ofNat (w.toNat / 256), UInt8.ofNat w.toNat]

/-- The four digits of a 32-bit word. -/
def ofWord32 (w : UInt32) : Bytes :=
  [UInt8.ofNat (w.toNat / 16777216), UInt8.ofNat (w.toNat / 65536),
    UInt8.ofNat (w.toNat / 256), UInt8.ofNat w.toNat]

/-- The 16-bit word with the given digits. -/
def word16 (high low : UInt8) : UInt16 :=
  UInt16.ofNat (high.toNat * 256 + low.toNat)

/-- The 32-bit word with the given digits. -/
def word32 (a b c d : UInt8) : UInt32 :=
  UInt32.ofNat (((a.toNat * 256 + b.toNat) * 256 + c.toNat) * 256 + d.toNat)

theorem word16_digits (w : UInt16) :
    word16 (UInt8.ofNat (w.toNat / 256)) (UInt8.ofNat w.toNat) = w := by
  apply UInt16.toNat_inj.mp
  have := w.toNat_lt
  simp [word16]
  omega

theorem word32_digits (w : UInt32) :
    word32 (UInt8.ofNat (w.toNat / 16777216)) (UInt8.ofNat (w.toNat / 65536))
      (UInt8.ofNat (w.toNat / 256)) (UInt8.ofNat w.toNat) = w := by
  apply UInt32.toNat_inj.mp
  have := w.toNat_lt
  simp [word32]
  omega

/-- Reads a 32-bit word. -/
def takeWord32 : Bytes → Option (UInt32 × Bytes)
  | a :: b :: c :: d :: rest => some (word32 a b c d, rest)
  | _ => none

/-- All 16-bit words of a sequence; an odd byte at the end is left out. -/
def words16 : Bytes → List UInt16
  | high :: low :: rest => word16 high low :: words16 rest
  | _ => []

/-- All pairs of 32-bit words of a sequence; an incomplete pair at the end
is left out. -/
def wordPairs32 : Bytes → List (UInt32 × UInt32)
  | a :: b :: c :: d :: e :: f :: g :: h :: rest =>
      (word32 a b c d, word32 e f g h) :: wordPairs32 rest
  | _ => []

theorem takeWord32_ofWord32 (w : UInt32) (rest : Bytes) :
    takeWord32 (ofWord32 w ++ rest) = some (w, rest) := by
  show some (word32 _ _ _ _, rest) = some (w, rest)
  rw [word32_digits]

theorem length_of_takeWord32 {bytes rest : Bytes} {w : UInt32}
    (h : takeWord32 bytes = some (w, rest)) : bytes.length = rest.length + 4 := by
  match bytes with
  | [] | [_] | [_, _] | [_, _, _] => simp [takeWord32] at h
  | _ :: _ :: _ :: _ :: _ =>
    simp only [takeWord32, Option.some.injEq, Prod.mk.injEq] at h
    simp [← h.2]

/-! ## Counted bytes -/

/-- The first `count` bytes and what follows them, if there are so many. -/
def take? (count : Nat) (bytes : Bytes) : Option (Bytes × Bytes) :=
  let front := bytes.take count
  if front.length = count then some (front, bytes.drop count) else none

theorem take?_append (front rest : Bytes) :
    take? front.length (front ++ rest) = some (front, rest) := by
  simp [take?]

theorem length_of_take? {count : Nat} {bytes front rest : Bytes}
    (h : take? count bytes = some (front, rest)) :
    front.length = count ∧ bytes.length = front.length + rest.length := by
  simp only [take?] at h
  split at h
  · next hcount =>
    simp only [Option.some.injEq, Prod.mk.injEq] at h
    obtain ⟨rfl, rfl⟩ := h
    refine ⟨hcount, ?_⟩
    simp only [List.length_take, List.length_drop] at hcount ⊢
    omega
  · simp at h

/-- Bytes preceded by their number, for the readers below. -/
def takeCounted (bytes : Bytes) : Option (Bytes × Bytes) :=
  match takeWord32 bytes with
  | some (count, rest) => take? count.toNat rest
  | none => none

theorem length_of_takeCounted {bytes front rest : Bytes}
    (h : takeCounted bytes = some (front, rest)) :
    bytes.length = 4 + front.length + rest.length := by
  simp only [takeCounted] at h
  split at h
  · next count tail hw =>
    have := length_of_takeWord32 hw
    have := length_of_take? h
    omega
  · simp at h

end Bytes

end MessageCatalog
