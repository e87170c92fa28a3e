/-
# `MessageCatalog.Proofs.HashRange` — a hash has 28 bits and is not zero

A step shifts the hash by four bits, adds a byte and folds what then stands
above the 28th bit back in:

    sum                 =  hash · 2⁴ + byte                mod 2³²
    hashStep hash byte  =  sum mod 2²⁸  xor  (sum div 2²⁸) · 2⁴

Whatever the sum is, both sides of the exclusive or are below 2²⁸.  It is
therefore no matter whether the addition wraps: the bound holds behind every
step, and the shift of the next one pushes no bit out of the word.
-/
import Mathlib.Data.Nat.Bitwise
import MessageCatalog.Compiled.Hash

namespace MessageCatalog.Compiled

/-! ## One step -/

/-- The bits that a step takes out at the top. -/
theorem testBit_top (i : Nat) :
    Nat.testBit 0xF0000000 i = (decide (28 ≤ i) && decide (i < 32)) := by
  rw [show 0xF0000000 = (2 ^ 4 - 1) <<< 28 from rfl, Nat.testBit_shiftLeft,
    Nat.testBit_two_pow_sub_one]
  grind

theorem testBit_of_le {word : UInt32} {i : Nat} (h : 32 ≤ i) : word.toNat.testBit i = false :=
  Nat.testBit_lt_two_pow
    (Nat.lt_of_lt_of_le word.toNat_lt (Nat.pow_le_pow_right (by decide) h))

theorem testBit_not (word : UInt32) (i : Nat) :
    (~~~word).toNat.testBit i = (decide (i < 32) && !word.toNat.testBit i) :=
  BitVec.getLsbD_not

/-- The four upper bits of a word, taken out there and folded in from the
fifth bit on. -/
theorem toNat_fold (word : UInt32) :
    ((word ^^^ ((word &&& 0xF0000000) >>> 24)) &&& ~~~(word &&& 0xF0000000)).toNat
      = word.toNat % 2 ^ 28 ^^^ word.toNat / 2 ^ 28 * 2 ^ 4 := by
  have htop : (0xF0000000 : UInt32).toNat = 0xF0000000 := rfl
  have hdistance : (24 : UInt32).toNat % 32 = 24 := rfl
  apply Nat.eq_of_testBit_eq
  intro i
  simp only [UInt32.toNat_and, UInt32.toNat_xor, UInt32.toNat_shiftRight, htop, hdistance,
    Nat.testBit_and, Nat.testBit_xor, Nat.testBit_shiftRight, testBit_not, testBit_top,
    ← Nat.shiftRight_eq_div_pow, ← Nat.shiftLeft_eq, Nat.testBit_shiftLeft,
    Nat.testBit_mod_two_pow]
  have hbit : 32 ≤ i → word.toNat.testBit i = false := testBit_of_le
  have hfolded : 32 ≤ 24 + i → word.toNat.testBit (24 + i) = false := testBit_of_le
  -- nothing is folded into the four lowest bits
  by_cases hlow : i < 4
  · grind
  · rw [show 28 + (i - 4) = 24 + i by omega]
    grind

/-- What a hash becomes before it is folded. -/
def sumWith (hash : UInt32) (byte : UInt8) : Nat := (hash.toNat * 2 ^ 4 + byte.toNat) % 2 ^ 32

theorem toNat_sum (hash : UInt32) (byte : UInt8) :
    ((hash <<< 4) + byte.toUInt32).toNat = sumWith hash byte := by
  rw [UInt32.toNat_add, UInt32.toNat_shiftLeft, show (4 : UInt32).toNat % 32 = 4 from rfl,
    Nat.shiftLeft_eq, UInt8.toNat_toUInt32, Nat.mod_add_mod, sumWith]

theorem toNat_hashStep (hash : UInt32) (byte : UInt8) :
    (hashStep hash byte).toNat
      = sumWith hash byte % 2 ^ 28 ^^^ sumWith hash byte / 2 ^ 28 * 2 ^ 4 := by
  rw [← toNat_sum]
  exact toNat_fold _

/-- Nothing is asked of the hash in front. -/
theorem hashStep_lt (hash : UInt32) (byte : UInt8) : (hashStep hash byte).toNat < 2 ^ 28 := by
  have hsum : sumWith hash byte < 2 ^ 32 := Nat.mod_lt _ (by decide)
  rw [toNat_hashStep]
  apply Nat.xor_lt_two_pow
  · exact Nat.mod_lt _ (by decide)
  · omega

theorem toNat_shifted {hash : UInt32} (h : hash.toNat < 2 ^ 28) :
    (hash <<< 4).toNat = hash.toNat * 2 ^ 4 := by
  rw [UInt32.toNat_shiftLeft, show (4 : UInt32).toNat % 32 = 4 from rfl, Nat.shiftLeft_eq]
  exact Nat.mod_eq_of_lt (by omega)

/-! ## A run -/

theorem lt_of_mem_scanl {start hash : UInt32} {bytes : Bytes} (hstart : start.toNat < 2 ^ 28)
    (h : hash ∈ bytes.scanl hashStep start) : hash.toNat < 2 ^ 28 := by
  induction bytes generalizing start with
  | nil =>
      rw [List.scanl_nil, List.mem_singleton] at h
      exact h ▸ hstart
  | cons byte rest ih =>
      rw [List.scanl_cons, List.mem_cons] at h
      rcases h with rfl | h
      · exact hstart
      · exact ih (hashStep_lt start byte) h

/-- The last of the hashes on the way is the one that is returned. -/
theorem hashBytes_mem_scanl (bytes : Bytes) : hashBytes bytes ∈ bytes.scanl hashStep 0 :=
  List.mem_of_getLast? List.getLast?_scanl

/-- A hash is at least one and below 2²⁸.  On the way to it all hashes are
below 2²⁸ as well, so that no shift loses a bit. -/
theorem elfHash_range (bytes : Bytes) :
    (1 ≤ (elfHash bytes).toNat ∧ (elfHash bytes).toNat < 2 ^ 28) ∧
      ∀ hash ∈ bytes.scanl hashStep 0,
        hash.toNat < 2 ^ 28 ∧ (hash <<< 4).toNat = hash.toNat * 2 ^ 4 := by
  have hrun : ∀ hash ∈ bytes.scanl hashStep 0, hash.toNat < 2 ^ 28 := by
    intro hash hmem
    exact lt_of_mem_scanl (by decide) hmem
  constructor
  · by_cases hzero : hashBytes bytes = 0
    · rw [show elfHash bytes = 1 from if_pos hzero]
      decide
    · rw [show elfHash bytes = hashBytes bytes from if_neg hzero]
      have hpos : (hashBytes bytes).toNat ≠ 0 := fun h => hzero (UInt32.toNat_inj.mp h)
      exact ⟨Nat.one_le_iff_ne_zero.mpr hpos, hrun _ (hashBytes_mem_scanl bytes)⟩
  · intro hash hmem
    exact ⟨hrun hash hmem, toNat_shifted (hrun hash hmem)⟩

/-- Seven bytes fill all 28 bits, and the sum in the step behind them
wraps. -/
def wrapping : Bytes := [15, 15, 15, 15, 15, 15, 15, 255]

theorem elfHash_range_wrapping :
    (1 ≤ (elfHash wrapping).toNat ∧ (elfHash wrapping).toNat < 2 ^ 28) ∧
      0x0FFFFFFF ∈ wrapping.scanl hashStep 0 ∧
      ((0x0FFFFFFF : UInt32) <<< 4).toNat = 0x0FFFFFFF * 2 ^ 4 ∧
      ((0x0FFFFFFF : UInt32) <<< 4) + (255 : UInt8).toUInt32 = 0xEF := by
  have hmem : 0x0FFFFFFF ∈ wrapping.scanl hashStep 0 := by decide
  obtain ⟨hhash, hrun⟩ := elfHash_range wrapping
  exact ⟨hhash, hmem, (hrun _ hmem).2, by decide⟩

end MessageCatalog.Compiled
