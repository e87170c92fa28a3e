/-
# `MessageCatalog.Proofs.Wire` — what is written with its length reads back

Every format of a compiled catalog is built from three things: big-endian
words, bytes with their length in front, and a tag in front of those.  The
writers fail on a length that four bytes cannot hold, so the laws here come
in two halves:

    writer x = .ok bytes ↔ (x fits) ∧ bytes = …        (`…_eq_ok`)
    reader (bytes ++ rest) = (x, rest)

The first is an inversion and is all that a later proof knows of a writer;
the second holds with any bytes behind, which is what lets formats stand one
after the other.
-/
import Mathlib.Data.List.Forall2
import MessageCatalog.Compiled.Record

namespace MessageCatalog

/-! ## Words -/

namespace Bytes

@[simp] theorem length_ofWord16 (w : UInt16) : (ofWord16 w).length = 2 := rfl

@[simp] theorem length_ofWord32 (w : UInt32) : (ofWord32 w).length = 4 := rfl

theorem words16_flatMap_ofWord16 (ws : List UInt16) : words16 (ws.flatMap ofWord16) = ws := by
  induction ws with
  | nil => rfl
  | cons w ws ih =>
      show word16 _ _ :: words16 (ws.flatMap ofWord16) = w :: ws
      rw [word16_digits, ih]

theorem wordPairs32_append (a b : UInt32) (rest : Bytes) :
    wordPairs32 (ofWord32 a ++ ofWord32 b ++ rest) = (a, b) :: wordPairs32 rest := by
  show (word32 _ _ _ _, word32 _ _ _ _) :: wordPairs32 rest = _
  rw [word32_digits, word32_digits]

theorem length_flatMap_ofWord16 (ws : List UInt16) :
    (ws.flatMap ofWord16).length = 2 * ws.length := by
  induction ws with
  | nil => rfl
  | cons w ws ih =>
      rw [List.flatMap_cons, List.length_append, ih, length_ofWord16, List.length_cons]
      omega

end Bytes

namespace Compiled

/-! ## Results -/

theorem bind_eq_ok {ε α β : Type} {x : Except ε α} {f : α → Except ε β} {b : β} :
    x >>= f = .ok b ↔ ∃ a, x = .ok a ∧ f a = .ok b := by
  cases x with
  | error e =>
      constructor
      · intro h; cases h
      · rintro ⟨a, h, -⟩; cases h
  | ok a =>
      constructor
      · exact fun h => ⟨a, rfl, h⟩
      · rintro ⟨_, ha, h⟩
        rw [Except.ok.inj ha]
        exact h

theorem bind_eq_error {ε α β : Type} {x : Except ε α} {f : α → Except ε β} {e : ε} :
    x >>= f = .error e ↔ x = .error e ∨ ∃ a, x = .ok a ∧ f a = .error e := by
  cases x with
  | error e' =>
      constructor
      · intro h
        cases h
        exact Or.inl rfl
      · rintro (h | ⟨a, ha, -⟩)
        · rw [Except.error.inj h]
          rfl
        · cases ha
  | ok a =>
      constructor
      · exact fun h => Or.inr ⟨a, rfl, h⟩
      · rintro (h | ⟨a', ha, h⟩)
        · cases h
        · rw [Except.ok.inj ha]
          exact h

theorem map_eq_ok {ε α β : Type} {x : Except ε α} {f : α → β} {b : β} :
    x.map f = .ok b ↔ ∃ a, x = .ok a ∧ f a = b := by
  cases x with
  | error e => simp [Except.map]
  | ok a => simp [Except.map]

theorem pure_eq_ok {ε α : Type} {a b : α} : (pure a : Except ε α) = .ok b ↔ a = b :=
  ⟨Except.ok.inj, congrArg Except.ok⟩

/-- A writer that is run over a list succeeds when it does on every item. -/
theorem mapM_eq_ok {ε α β : Type} {f : α → Except ε β} :
    ∀ {xs : List α} {ys : List β},
      xs.mapM f = .ok ys ↔ List.Forall₂ (fun x y => f x = .ok y) xs ys
  | [], ys => by
      rw [List.mapM_nil, List.forall₂_nil_left_iff, pure_eq_ok, eq_comm]
  | x :: xs, ys => by
      rw [List.mapM_cons, List.forall₂_cons_left_iff, bind_eq_ok]
      constructor
      · rintro ⟨y, hx, h⟩
        obtain ⟨tail, hxs, h⟩ := bind_eq_ok.mp h
        exact ⟨y, tail, hx, mapM_eq_ok.mp hxs, (pure_eq_ok.mp h).symm⟩
      · rintro ⟨y, tail, hx, hxs, rfl⟩
        exact ⟨y, hx, bind_eq_ok.mpr ⟨tail, mapM_eq_ok.mpr hxs, rfl⟩⟩

/-! ## Lengths -/

theorem wireWord_eq_ok {value : Nat} {bytes : Bytes} :
    wireWord value = .ok bytes ↔
      value < 4294967296 ∧ bytes = Bytes.ofWord32 (UInt32.ofNat value) := by
  unfold wireWord
  split
  · next h => simp [h, eq_comm]
  · next h => simp [h]

/-! ## Counted bytes -/

theorem counted_eq_ok {payload bytes : Bytes} :
    counted payload = .ok bytes ↔
      payload.length < 4294967296
        ∧ bytes = Bytes.ofWord32 (UInt32.ofNat payload.length) ++ payload := by
  unfold counted wireWord
  split
  · next h => simp [Except.map, h, eq_comm]
  · next h => simp [Except.map, h]

theorem length_of_counted {payload bytes : Bytes} (h : counted payload = .ok bytes) :
    bytes.length = 4 + payload.length := by
  rw [(counted_eq_ok.mp h).2, List.length_append, Bytes.length_ofWord32]

theorem takeCounted_of_counted {payload bytes : Bytes} (h : counted payload = .ok bytes)
    (rest : Bytes) : Bytes.takeCounted (bytes ++ rest) = some (payload, rest) := by
  obtain ⟨hlength, rfl⟩ := counted_eq_ok.mp h
  rw [Bytes.takeCounted, List.append_assoc, Bytes.takeWord32_ofWord32]
  show Bytes.take? (UInt32.ofNat payload.length).toNat (payload ++ rest) = _
  rw [UInt32.toNat_ofNat_of_lt' hlength, Bytes.take?_append]

/-! ## Tagged bytes -/

theorem tagged_eq_ok {tag : UInt8} {payload bytes : Bytes} :
    tagged tag payload = .ok bytes ↔
      ∃ body, counted payload = .ok body ∧ bytes = tag :: body := by
  simp only [tagged, map_eq_ok, eq_comm (a := bytes)]

theorem length_of_tagged {tag : UInt8} {payload bytes : Bytes}
    (h : tagged tag payload = .ok bytes) : bytes.length = 5 + payload.length := by
  obtain ⟨body, hbody, rfl⟩ := tagged_eq_ok.mp h
  rw [List.length_cons, length_of_counted hbody]
  omega

/-! ## Blocks -/

/-- A block reads back as itself, and what follows it is split on. -/
theorem splitBlocks_toBytes {block : Block} {bytes : Bytes} (h : block.toBytes = .ok bytes)
    (htag : block.tag ≠ 0) (hpayload : block.payload ≠ []) (rest : Bytes) :
    splitBlocks (bytes ++ rest) = (block :: (splitBlocks rest).1, (splitBlocks rest).2) := by
  obtain ⟨body, hbody, rfl⟩ := tagged_eq_ok.mp h
  obtain ⟨hlength, rfl⟩ := counted_eq_ok.mp hbody
  have hword : Bytes.takeWord32
      (Bytes.ofWord32 (UInt32.ofNat block.payload.length) ++ block.payload ++ rest)
        = some (UInt32.ofNat block.payload.length, block.payload ++ rest) := by
    rw [List.append_assoc, Bytes.takeWord32_ofWord32]
  have hzero : UInt32.ofNat block.payload.length ≠ 0 := by
    intro hz
    have := congrArg UInt32.toNat hz
    rw [UInt32.toNat_ofNat_of_lt' hlength] at this
    exact hpayload (List.length_eq_zero_iff.mp this)
  have htake : Bytes.take? (UInt32.ofNat block.payload.length).toNat (block.payload ++ rest)
      = some (block.payload, rest) := by
    rw [UInt32.toNat_ofNat_of_lt' hlength, Bytes.take?_append]
  rw [List.cons_append, splitBlocks]
  split
  · next hnone => rw [hword] at hnone; cases hnone
  · next length rest' hsome =>
    rw [hword] at hsome
    obtain ⟨rfl, rfl⟩ := Prod.mk.inj (Option.some.inj hsome)
    rw [if_neg (by simp [htag, hzero])]
    split
    · next hnone => rw [htake] at hnone; cases hnone
    · next payload rest'' hsome' =>
      rw [htake] at hsome'
      obtain ⟨rfl, rfl⟩ := Prod.mk.inj (Option.some.inj hsome')
      rfl

/-- The blocks that were written one after the other are the blocks that are
read. -/
theorem splitBlocks_flatten {blocks : List Block} {written : List Bytes}
    (h : List.Forall₂ (fun block bytes => block.toBytes = .ok bytes) blocks written)
    (hblocks : ∀ block ∈ blocks, block.tag ≠ 0 ∧ block.payload ≠ []) :
    splitBlocks written.flatten = (blocks, none) := by
  induction h with
  | nil => rw [List.flatten_nil, splitBlocks]
  | @cons block bytes blocks written hblock _ ih =>
      obtain ⟨htag, hpayload⟩ := hblocks block List.mem_cons_self
      rw [List.flatten_cons, splitBlocks_toBytes hblock htag hpayload,
        ih fun b hb => hblocks b (List.mem_cons_of_mem _ hb)]

end Compiled

end MessageCatalog
