/-
# `MessageCatalog.Proofs.KeyOrder` — the order of the records and what neighbours share

The order of the keys is lexicographic in the hash, the context, the source
text and the comment, so it is total and tells different keys apart.  The
level up to which two keys agree is the length of their common prefix in
this sense, which gives the law that stripped catalogs rest on:

    a ≤ b ≤ c, and a and c agree up to a level  →  so do a and b

What a key shares with any later one it therefore shares with the one right
behind it.
-/
import MessageCatalog.Compiled.Record

namespace MessageCatalog

/-- Between two values that compare as equal there are only equal ones. -/
theorem compare_eq_of_between {α : Type} {cmp : α → α → Ordering} [Std.TransCmp cmp] {a b c : α}
    (hab : (cmp a b).isLE) (hbc : (cmp b c).isLE) (hac : cmp a c = .eq) : cmp a b = .eq := by
  have hca : cmp c a = .eq := Std.OrientedCmp.eq_symm hac
  have hba : (cmp b a).isLE := Std.TransCmp.isLE_trans hbc (by rw [hca]; rfl)
  exact Std.OrientedCmp.isLE_antisymm hab hba

/-- What is sorted by a key stands in the order of the keys. -/
theorem pairwise_mergeSort_isLE {α β : Type} {cmp : α → α → Ordering} [Std.TransCmp cmp]
    (key : β → α) (items : List β) :
    (items.mergeSort fun a b => (cmp (key a) (key b)).isLE).Pairwise fun a b =>
      (cmp (key a) (key b)).isLE := by
  refine List.pairwise_mergeSort ?_ ?_ items
  · exact fun a b c hab hbc => Std.TransCmp.isLE_trans hab hbc
  intro a b
  have hswap : cmp (key b) (key a) = (cmp (key a) (key b)).swap := Std.OrientedCmp.eq_swap
  rw [hswap]
  cases cmp (key a) (key b) <;> rfl

theorem Utf8.encode_inj {s t : String} : Utf8.encode s = Utf8.encode t ↔ s = t :=
  ⟨Utf8.encode_injective, fun h => h ▸ rfl⟩

namespace Compiled

namespace Key

/-! ## The order -/

instance : Std.TransCmp order := by
  unfold order
  infer_instance

theorem order_eq_then (a b : Key) :
    order a b = (compare a.hash b.hash).then
      ((compare (Utf8.encode a.context) (Utf8.encode b.context)).then
        ((compare (Utf8.encode a.source) (Utf8.encode b.source)).then
          (compare (Utf8.encode a.comment) (Utf8.encode b.comment)))) :=
  rfl

/-- The hashes of the records ascend. -/
theorem hash_le_of_isLE {a b : Key} (h : (order a b).isLE) : a.hash ≤ b.hash := by
  rw [order_eq_then, Ordering.isLE_then_iff_and] at h
  exact (Std.LawfulOrderOrd.isLE_compare _ _).mp h.1

/-! ## Agreement -/

/-- Two keys agree up to a level. -/
def Agree (a b : Key) : Level → Prop
  | .nothing => True
  | .hash => a.hash = b.hash
  | .context => a.hash = b.hash ∧ a.context = b.context
  | .source => a.hash = b.hash ∧ a.context = b.context ∧ a.source = b.source
  | .comment => a.hash = b.hash ∧ a.context = b.context ∧ a.source = b.source
      ∧ a.comment = b.comment

theorem Agree.symm {a b : Key} {level : Level} (h : a.Agree b level) : b.Agree a level := by
  cases level with
  | nothing => exact h
  | hash => exact Eq.symm h
  | context => exact ⟨h.1.symm, h.2.symm⟩
  | source => exact ⟨h.1.symm, h.2.1.symm, h.2.2.symm⟩
  | comment => exact ⟨h.1.symm, h.2.1.symm, h.2.2.1.symm, h.2.2.2.symm⟩

/-- What two keys share is the deepest level up to which they agree. -/
theorem agree_iff {a b : Key} {level : Level} :
    Agree a b level ↔ level.rank ≤ (a.shared b).rank := by
  unfold shared
  split
  · next h => cases level <;> simp [Agree, Level.rank, h]
  · next hhash =>
    rw [Decidable.not_not] at hhash
    split
    · next h => cases level <;> simp [Agree, Level.rank, hhash, h]
    · next hcontext =>
      rw [Decidable.not_not] at hcontext
      split
      · next h => cases level <;> simp [Agree, Level.rank, hhash, hcontext, h]
      · next hsource =>
        rw [Decidable.not_not] at hsource
        split
        · next h => cases level <;> simp [Agree, Level.rank, hhash, hcontext, hsource, h]
        · next hcomment =>
          rw [Decidable.not_not] at hcomment
          cases level <;> simp [Agree, Level.rank, hhash, hcontext, hsource, hcomment]

instance (a b : Key) (level : Level) : Decidable (Agree a b level) :=
  decidable_of_iff _ agree_iff.symm

/-- The order of the keys as far as they are compared up to a level. -/
def orderUpTo : Level → Key → Key → Ordering
  | .nothing => compareOn fun _ => 0
  | .hash => compareOn hash
  | .context => compareLex (compareOn hash) (compareOn fun key => Utf8.encode key.context)
  | .source =>
    compareLex (compareLex (compareOn hash) (compareOn fun key => Utf8.encode key.context))
      (compareOn fun key => Utf8.encode key.source)
  | .comment => order

instance (level : Level) : Std.TransCmp (orderUpTo level) := by
  cases level <;> simp only [orderUpTo] <;> infer_instance

/-- Keys in order are in order up to every level. -/
theorem isLE_orderUpTo {a b : Key} (h : (order a b).isLE) (level : Level) :
    (orderUpTo level a b).isLE := by
  rw [order_eq_then, ← Ordering.then_assoc, ← Ordering.then_assoc] at h
  have hsource := (Ordering.isLE_then_iff_and.mp h).1
  have hcontext := (Ordering.isLE_then_iff_and.mp hsource).1
  have hhash := (Ordering.isLE_then_iff_and.mp hcontext).1
  cases level with
  | nothing => rfl
  | hash => exact hhash
  | context => exact hcontext
  | source => exact hsource
  | comment => rwa [Ordering.then_assoc, Ordering.then_assoc, ← order_eq_then] at h

theorem orderUpTo_eq_eq {a b : Key} (level : Level) :
    orderUpTo level a b = .eq ↔ Agree a b level := by
  cases level <;>
    simp only [orderUpTo, order, compareLex, compareOn, Agree, Ordering.then_eq_eq,
      Std.LawfulEqOrd.compare_eq_iff_eq, Utf8.encode_inj, and_assoc]

/-- The order tells different keys apart. -/
theorem order_eq_eq {a b : Key} : order a b = .eq ↔ a = b := by
  constructor
  · intro h
    obtain ⟨_, hcontext, hsource, hcomment⟩ := (orderUpTo_eq_eq .comment).mp h
    cases a; cases b
    congr
  · rintro rfl
    exact Std.ReflCmp.compare_self

theorem order_lt_of_isLE {a b : Key} (h : (order a b).isLE) (hne : a ≠ b) : order a b = .lt := by
  cases ho : order a b with
  | lt => rfl
  | eq => exact absurd (order_eq_eq.mp ho) hne
  | gt => rw [ho] at h; cases h

/-- A key between two others agrees with the first as far as they agree with
each other. -/
theorem agree_of_between {a b c : Key} (hab : (order a b).isLE) (hbc : (order b c).isLE)
    {level : Level} (hac : Agree a c level) : Agree a b level := by
  rw [← orderUpTo_eq_eq] at hac ⊢
  exact compare_eq_of_between (isLE_orderUpTo hab level) (isLE_orderUpTo hbc level) hac

/-- A key shares with a later one at most what it shares with one between
them. -/
theorem shared_le_of_between {a b c : Key} (hab : (order a b).isLE) (hbc : (order b c).isLE) :
    (a.shared c).rank ≤ (a.shared b).rank :=
  agree_iff.mp (agree_of_between hab hbc (agree_iff.mpr (Nat.le_refl _)))

end Key

end Compiled

end MessageCatalog
