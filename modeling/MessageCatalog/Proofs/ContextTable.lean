/-
# `MessageCatalog.Proofs.ContextTable` — a context table knows its contexts

A table is built in three stages, and each has one law.

* `bucketed` sorts the contexts by bucket, so the runs of equal buckets are
  the buckets: every run has a bucket of its own (`pairwise_runs`).
* `place` puts the chains of the runs one behind the other, so a chain
  begins where its place says (`mem_place`), at an even offset.
* a walk along a chain compares with the contexts of that chain and stops
  at its zero (`chainHas_chain`); no listed context is empty, so no zero
  comes earlier.

Together, a context is found if and only if some listed context has the
same first 255 bytes.  There is a table at all if and only if its buckets can
be numbered and its chains fit into the largest pool (`exists_build_iff`); they
do if there is room for each context and three more bytes (`exists_build`).
-/
import Mathlib.Algebra.Group.Action.Defs
import Mathlib.Algebra.GroupWithZero.Nat
import Mathlib.Algebra.Order.BigOperators.Group.List
import Mathlib.Algebra.Order.Group.Nat
import Mathlib.Data.Finset.Card
import Mathlib.Data.List.Destutter
import Mathlib.Data.List.SplitBy
import MessageCatalog.Compiled.ContextTable
import MessageCatalog.Proofs.KeyOrder
import MessageCatalog.Proofs.Wire

namespace MessageCatalog.Compiled

/-! ## Different contexts -/

theorem mem_eraseReps {α : Type} [BEq α] [LawfulBEq α] {items : List α} {item : α} :
    item ∈ items.eraseReps ↔ item ∈ items := by
  have hloop : ∀ (rest : List α) (first : α) (done : List α),
      item ∈ List.eraseRepsBy.loop (· == ·) first rest done
        ↔ item = first ∨ item ∈ rest ∨ item ∈ done := by
    intro rest
    induction rest with
    | nil =>
        intro first done
        simp [List.eraseRepsBy.loop, or_comm]
    | cons following rest ih =>
        intro first done
        rw [List.eraseRepsBy.loop]
        split
        · next hsame =>
          rw [ih, List.mem_cons, ← beq_iff_eq.mp hsame]
          tauto
        · rw [ih, List.mem_cons, List.mem_cons]
          tauto
  cases items with
  | nil => rfl
  | cons first rest =>
      show item ∈ List.eraseRepsBy.loop (· == ·) first rest [] ↔ _
      rw [hloop, List.mem_cons]
      simp

theorem mem_distinct {strings : List Bytes} {string : Bytes} :
    string ∈ distinct strings ↔ string ∈ strings := by
  rw [distinct, mem_eraseReps, List.mem_mergeSort]

theorem isChain_and {α : Type} {R S : α → α → Prop} :
    ∀ {l : List α}, l.IsChain R → l.IsChain S → l.IsChain fun a b => R a b ∧ S a b
  | [], _, _ => .nil
  | [_], _, _ => .singleton _
  | _ :: _ :: _, hR, hS => by
      rw [List.isChain_cons_cons] at hR hS ⊢
      exact ⟨⟨hR.1, hS.1⟩, isChain_and hR.2 hS.2⟩

theorem eraseReps_eq_destutter {α : Type} [BEq α] [LawfulBEq α] [DecidableEq α] (items : List α) :
    items.eraseReps = items.destutter (· ≠ ·) := by
  have hloop : ∀ (rest : List α) (first : α) (done : List α),
      List.eraseRepsBy.loop (· == ·) first rest done
        = done.reverse ++ rest.destutter' (· ≠ ·) first := by
    intro rest
    induction rest with
    | nil =>
        intro first done
        exact List.reverse_cons
    | cons following rest ih =>
        intro first done
        by_cases hsame : first = following
        · have hbeq : (first == following) = true := beq_iff_eq.mpr hsame
          rw [List.eraseRepsBy.loop, hbeq, List.destutter'_cons_neg rest (not_not.mpr hsame)]
          exact ih first done
        · have hbeq : (first == following) = false := beq_eq_false_iff_ne.mpr hsame
          rw [List.eraseRepsBy.loop, hbeq, List.destutter'_cons_pos rest hsame]
          show List.eraseRepsBy.loop (· == ·) following rest (first :: done) = _
          rw [ih, List.reverse_cons, List.append_assoc]
          rfl
  cases items with
  | nil => rfl
  | cons first rest => exact hloop rest first []

/-- Different byte strings are listed in strictly ascending order. -/
theorem pairwise_distinct (strings : List Bytes) :
    (distinct strings).Pairwise fun a b => compare a b = .lt := by
  have hsorted : (strings.mergeSort fun a b => (compare a b).isLE).Pairwise fun a b =>
      (compare a b).isLE := pairwise_mergeSort_isLE id strings
  have hkept := hsorted.sublist (List.destutter_sublist (· ≠ ·) _)
  have hchain := isChain_and hkept.isChain (List.isChain_destutter (· ≠ ·) _)
  have : Trans (fun a b : Bytes => compare a b = .lt) (fun a b : Bytes => compare a b = .lt)
      fun a b : Bytes => compare a b = .lt := ⟨Std.TransCmp.lt_trans⟩
  rw [distinct, eraseReps_eq_destutter]
  refine (hchain.imp ?_).pairwise
  rintro a b ⟨hle, hne⟩
  refine (Ordering.isLE_iff_eq_lt_or_eq_eq.mp hle).resolve_right ?_
  intro heq
  exact hne (Std.LawfulEqOrd.compare_eq_iff_eq.mp heq)

theorem nodup_distinct (strings : List Bytes) : (distinct strings).Nodup := by
  refine (pairwise_distinct strings).imp ?_
  rintro a _ hlt rfl
  have hself : compare a a = .eq := Std.ReflCmp.compare_self
  rw [hself] at hlt
  cases hlt

theorem toFinset_distinct (strings : List Bytes) :
    (distinct strings).toFinset = strings.toFinset := by
  ext string
  rw [List.mem_toFinset, List.mem_toFinset, mem_distinct]

theorem length_distinct (strings : List Bytes) :
    (distinct strings).length = strings.toFinset.card := by
  rw [← toFinset_distinct, List.toFinset_card_of_nodup (nodup_distinct strings)]

namespace ContextTable

/-! ## Runs -/

/-- The runs of a list by bucket. -/
def runs (items : List (Nat × Bytes)) : List (List (Nat × Bytes)) :=
  items.splitBy fun a b => a.1 == b.1

/-- The bucket of a run. -/
def runBucket (run : List (Nat × Bytes)) : Nat := (run.head?.map Prod.fst).getD 0

theorem bucket_of_mem_run {items run : List (Nat × Bytes)} (hrun : run ∈ runs items)
    {item : Nat × Bytes} (hitem : item ∈ run) : item.1 = runBucket run := by
  have hchain := List.isChain_of_mem_splitBy hrun
  match run, hitem with
  | first :: rest, hitem =>
      have hequal : ((first :: rest).map Prod.fst).IsChain Eq :=
        List.isChain_map_of_isChain Prod.fst (fun _ _ h => beq_iff_eq.mp h) hchain
      rcases List.mem_cons.mp hitem with rfl | hrest
      · rfl
      · exact ((List.pairwise_cons.mp hequal.pairwise).1 _ (List.mem_map_of_mem hrest)).symm

theorem mem_runs {items : List (Nat × Bytes)} {item : Nat × Bytes} :
    item ∈ items ↔ ∃ run ∈ runs items, item ∈ run := by
  conv_lhs => rw [← List.flatten_splitBy (fun a b => a.1 == b.1) items, List.mem_flatten]
  rfl

/-- The runs of a sorted list are its buckets: no two of them have the same. -/
theorem pairwise_runs {items : List (Nat × Bytes)} (h : items.Pairwise fun a b => a.1 ≤ b.1) :
    ((runs items).map runBucket).Pairwise (· < ·) := by
  rw [← List.flatten_splitBy (fun a b => a.1 == b.1) items, List.pairwise_flatten] at h
  have hchain := isChain_and h.2.isChain
    (List.isChain_getLast_head_splitBy (fun a b => a.1 == b.1) items)
  refine List.IsChain.pairwise ((List.isChain_map _).mpr (hchain.imp_of_mem_imp ?_))
  rintro run later hrun hlater ⟨hle, hne, hne', hdiffer⟩
  have hlast := bucket_of_mem_run hrun (List.getLast_mem hne)
  have hhead := bucket_of_mem_run hlater (List.head_mem hne')
  have hle := hle _ (List.getLast_mem hne) _ (List.head_mem hne')
  have hdiffer : (run.getLast hne).1 ≠ (later.head hne').1 := beq_eq_false_iff_ne.mp hdiffer
  omega

/-! ## Places -/

/-- The chain of a run has the bucket of the run. -/
theorem bucket_chain (run : List (Nat × Bytes)) : (Chain.of run).bucket = runBucket run := rfl

theorem even_length_evened (bytes : Bytes) : (evened bytes).length % 2 = 0 := by
  rw [length_evened]
  omega

/-- What is known of the place of a chain: it is where the chain begins in
the pool of all chains, and its half can be written in 16 bits. -/
theorem mem_place {chains : List Chain} {start offset : Nat} {chain : Chain}
    (h : (chain, offset) ∈ place start chains) :
    offset / 2 < 65536 ∧ ∃ front back,
      (place start chains).flatMap (fun p => p.1.bytes) = front ++ chain.bytes ++ back
        ∧ offset = start + front.length := by
  induction chains generalizing start with
  | nil => cases h
  | cons first rest ih =>
      rw [place] at h ⊢
      split at h
      · next hsmall =>
        rw [if_pos hsmall, List.flatMap_cons]
        rcases List.mem_cons.mp h with heq | hrest
        · obtain ⟨rfl, rfl⟩ := Prod.mk.inj heq
          exact ⟨hsmall, [], _, rfl, rfl⟩
        · obtain ⟨hbound, front, back, hpool, hoffset⟩ := ih hrest
          refine ⟨hbound, first.bytes ++ front, back, ?_, ?_⟩
          · rw [hpool]
            simp only [List.append_assoc]
          · rw [List.length_append]
            omega
      · cases h

theorem fst_mem_of_mem_place {chains : List Chain} {start : Nat} {placed : Chain × Nat}
    (h : placed ∈ place start chains) : placed.1 ∈ chains := by
  induction chains generalizing start with
  | nil => cases h
  | cons first rest ih =>
      rw [place] at h
      split at h
      · rcases List.mem_cons.mp h with rfl | hrest
        · exact List.mem_cons_self
        · exact List.mem_cons_of_mem _ (ih hrest)
      · cases h

/-- Chains of even sizes have even places. -/
theorem even_of_mem_place {chains : List Chain} (heven : ∀ c ∈ chains, c.bytes.length % 2 = 0)
    {start offset : Nat} (hstart : start % 2 = 0) {chain : Chain}
    (h : (chain, offset) ∈ place start chains) : offset % 2 = 0 := by
  induction chains generalizing start with
  | nil => cases h
  | cons first rest ih =>
      rw [place] at h
      split at h
      · rcases List.mem_cons.mp h with heq | hrest
        · obtain ⟨rfl, rfl⟩ := Prod.mk.inj heq
          exact hstart
        · have hfirst := heven first List.mem_cons_self
          exact ih (fun c hc => heven c (List.mem_cons_of_mem _ hc)) (by omega) hrest
      · cases h

/-- If no chain is left over then all are placed. -/
theorem map_fst_place {chains : List Chain} {start : Nat}
    (h : ¬ (place start chains).length < chains.length) :
    (place start chains).map Prod.fst = chains := by
  induction chains generalizing start with
  | nil => rfl
  | cons first rest ih =>
      rw [place] at h ⊢
      split
      · next hsmall =>
        rw [if_pos hsmall, List.length_cons, List.length_cons] at h
        rw [List.map_cons, ih (by omega)]
      · next hlarge =>
        rw [if_neg hlarge] at h
        exact absurd (Nat.succ_pos rest.length) h

/-- Gives the bucket of a chain its place. -/
def setPlace (places : Array UInt16) (placed : Chain × Nat) : Array UInt16 :=
  places.setIfInBounds placed.1.bucket (UInt16.ofNat (placed.2 / 2))

theorem placesOf_eq (buckets : Nat) (placed : List (Chain × Nat)) :
    placesOf buckets placed = placed.foldl setPlace (Array.replicate buckets 0) := rfl

theorem size_foldl_setPlace (placed : List (Chain × Nat)) (places : Array UInt16) :
    (placed.foldl setPlace places).size = places.size := by
  induction placed generalizing places with
  | nil => rfl
  | cons p placed ih => rw [List.foldl_cons, ih, setPlace, Array.size_setIfInBounds]

theorem size_placesOf (buckets : Nat) (placed : List (Chain × Nat)) :
    (placesOf buckets placed).size = buckets := by
  rw [placesOf_eq, size_foldl_setPlace, Array.size_replicate]

/-- A bucket without a chain keeps its place. -/
theorem getElem?_foldl_setPlace {bucket : Nat} {placed : List (Chain × Nat)}
    (h : ∀ p ∈ placed, p.1.bucket ≠ bucket) (places : Array UInt16) :
    (placed.foldl setPlace places)[bucket]? = places[bucket]? := by
  induction placed generalizing places with
  | nil => rfl
  | cons p placed ih =>
      rw [List.foldl_cons, ih fun q hq => h q (List.mem_cons_of_mem _ hq), setPlace,
        Array.getElem?_setIfInBounds_ne (h p List.mem_cons_self)]

/-- The place of a chain, where every bucket has a single one. -/
theorem getElem?_of_mem_placed {buckets : Nat} {placed : List (Chain × Nat)}
    (hdistinct : (placed.map fun p => p.1.bucket).Nodup) {chain : Chain} {offset : Nat}
    (h : (chain, offset) ∈ placed) (hbucket : chain.bucket < buckets) :
    (placesOf buckets placed)[chain.bucket]? = some (UInt16.ofNat (offset / 2)) := by
  have hrun : ∀ (placed : List (Chain × Nat)) (places : Array UInt16), places.size = buckets →
      (placed.map fun p => p.1.bucket).Nodup → (chain, offset) ∈ placed →
      (placed.foldl setPlace places)[chain.bucket]? = some (UInt16.ofNat (offset / 2)) := by
    intro placed
    induction placed with
    | nil => intro _ _ _ h; cases h
    | cons p placed ih =>
        intro places hsize hdistinct h
        rw [List.map_cons, List.nodup_cons] at hdistinct
        rw [List.foldl_cons]
        rcases List.mem_cons.mp h with rfl | hrest
        · have hlater : ∀ q ∈ placed, q.1.bucket ≠ chain.bucket := fun q hq he =>
            hdistinct.1 (List.mem_map.mpr ⟨q, hq, he⟩)
          rw [getElem?_foldl_setPlace hlater, setPlace]
          exact Array.getElem?_setIfInBounds_self_of_lt (hsize ▸ hbucket)
        · refine ih _ ?_ hdistinct.2 hrest
          rw [setPlace, Array.size_setIfInBounds, hsize]
  exact hrun placed _ Array.size_replicate hdistinct h

/-! ## Chains -/

/-- A context that can be listed: it is not empty, and one byte holds its
length. -/
def IsListable (context : Bytes) : Prop := context ≠ [] ∧ context.length ≤ 255

theorem isListable_storedPart {context : Bytes} (h : context ≠ []) :
    IsListable (storedPart context) := by
  refine ⟨?_, ?_⟩
  · intro hnil
    rcases List.take_eq_nil_iff.mp hnil with hzero | hempty
    · cases hzero
    · exact h hempty
  · exact List.length_take_le _ _

/-- A walk ends at a zero. -/
theorem chainHas_zero {pool : Array UInt8} {offset : Nat} (h : pool[offset]? = some 0)
    (key : Bytes) : chainHas pool key offset = false := by
  rw [chainHas]
  split
  · rfl
  · next length hsome =>
    rw [hsome] at h
    obtain rfl := Option.some.inj h
    rfl

/-- A walk compares with the context that is listed where it stands, and goes
on behind it. -/
theorem chainHas_cons {front c rest : Bytes} (hc : IsListable c) (key : Bytes) :
    chainHas (front ++ listed c ++ rest).toArray key front.length
      = (c == key
          || chainHas (front ++ listed c ++ rest).toArray key (front ++ listed c).length) := by
  obtain ⟨hne, hlength⟩ := hc
  have hnat : (UInt8.ofNat c.length).toNat = c.length :=
    UInt8.toNat_ofNat_of_lt' (show c.length < 256 by omega)
  -- the length is no end of the chain: the context is not empty, and one byte holds it
  have hzero : UInt8.ofNat c.length ≠ 0 := by
    intro he
    have he := congrArg UInt8.toNat he
    rw [hnat] at he
    exact hne (List.length_eq_zero_iff.mp he)
  have hfirst : (front ++ listed c ++ rest).toArray[front.length]?
      = some (UInt8.ofNat c.length) := by
    simp [listed]
  have hstop : front.length + 1 + c.length = (front ++ listed c).length := by
    simp only [List.length_append, listed, List.length_cons]
    omega
  have hextract : ((front ++ listed c ++ rest).toArray.extract (front.length + 1)
      (front ++ listed c).length).toList = c := by
    rw [← hstop, Array.toList_extract, List.extract_eq_take_drop]
    simp [listed]
  rw [chainHas]
  split
  · next hnone => rw [hfirst] at hnone; cases hnone
  · next length hsome =>
    rw [hfirst] at hsome
    obtain rfl := Option.some.inj hsome
    simp only [hnat, hstop, hextract]
    split
    · next hshort =>
      rcases hshort with he | hsize
      · exact absurd he hzero
      · rw [List.size_toArray, List.length_append] at hsize
        omega
    · cases c == key <;> rfl

/-- A walk along a chain compares with the contexts that it lists, and with
no others: it ends at the zero behind the last of them. -/
theorem chainHas_listed {contexts : List Bytes} (h : ∀ c ∈ contexts, IsListable c) (key : Bytes)
    (back : Bytes) :
    ∀ front : Bytes, chainHas (front ++ contexts.flatMap listed ++ 0 :: back).toArray key
      front.length = contexts.contains key := by
  induction contexts with
  | nil => exact fun front => chainHas_zero (by simp) key
  | cons c rest ih =>
      intro front
      have hrest := ih (fun d hd => h d (List.mem_cons_of_mem _ hd)) (front ++ listed c)
      rw [List.append_assoc] at hrest
      have hpool : front ++ (c :: rest).flatMap listed ++ 0 :: back
          = front ++ listed c ++ (rest.flatMap listed ++ 0 :: back) := by
        simp only [List.flatMap_cons, List.append_assoc]
      rw [hpool, chainHas_cons (h c List.mem_cons_self), hrest, List.contains_cons, BEq.comm]

theorem bytes_chain (run : List (Nat × Bytes)) :
    ∃ pad, (Chain.of run).bytes = (run.map Prod.snd).flatMap listed ++ 0 :: pad := by
  rw [List.flatMap_map]
  show ∃ pad, evened ((run.flatMap fun c => listed c.2) ++ [0]) = _
  unfold evened
  split
  · exact ⟨[], rfl⟩
  · exact ⟨[0], List.append_assoc ..⟩

/-- A walk along the chain of a run, where it is placed. -/
theorem chainHas_chain {chains : List Chain} {run : List (Nat × Bytes)} {offset : Nat}
    (h : (Chain.of run, offset) ∈ place 2 chains) (hrun : ∀ c ∈ run, IsListable c.2)
    (key : Bytes) :
    chainHas (poolOf (place 2 chains)).toArray key offset = (run.map Prod.snd).contains key := by
  obtain ⟨-, front, back, hpool, hoffset⟩ := mem_place h
  obtain ⟨pad, hbytes⟩ := bytes_chain run
  have hlist : ∀ c ∈ run.map Prod.snd, IsListable c := List.forall_mem_map.mpr hrun
  have hwalk := chainHas_listed hlist key (pad ++ back) (0 :: 0 :: front)
  have hlayout : poolOf (place 2 chains)
      = (0 :: 0 :: front) ++ (run.map Prod.snd).flatMap listed ++ 0 :: (pad ++ back) := by
    rw [poolOf, hpool, hbytes]
    simp only [List.append_assoc, List.cons_append]
  have hlength : (0 :: 0 :: front).length = offset := by
    rw [List.length_cons, List.length_cons]
    omega
  rw [hlayout, ← hlength]
  exact hwalk

/-! ## Tables -/

theorem mem_bucketed {buckets : Nat} {contexts : List Bytes} {item : Nat × Bytes} :
    item ∈ bucketed buckets contexts
      ↔ ∃ c ∈ contexts, c ≠ [] ∧ (bucketOf buckets (storedPart c), storedPart c) = item := by
  simp only [bucketed, List.mem_mergeSort, List.mem_map, List.mem_filter, Bool.not_eq_true',
    List.isEmpty_eq_false_iff, and_assoc]

/-- Sorting the contexts puts those of a bucket together. -/
theorem pairwise_bucketed (buckets : Nat) (contexts : List Bytes) :
    (bucketed buckets contexts).Pairwise fun a b => a.1 ≤ b.1 := by
  have hsorted : (bucketed buckets contexts).Pairwise fun a b =>
      (compareLex (compareOn Prod.fst) (compareOn Prod.snd) a b).isLE = true :=
    pairwise_mergeSort_isLE id _
  refine hsorted.imp ?_
  intro a b h
  rw [compareLex, Ordering.isLE_then_iff_and] at h
  exact (Std.LawfulOrderOrd.isLE_compare _ _).mp h.1

/-- The buckets of a built table, and its pool. -/
def tableOf (contexts : List Bytes) : ContextTable :=
  let buckets := tableSize contexts.length
  let placed := place 2 (chains buckets contexts)
  { places := placesOf buckets placed, pool := (poolOf placed).toArray }

/-- A table is built only if the number of its buckets can be written, its
pool is not too large and all its chains have a place. -/
theorem build_eq_ok {contexts : List Bytes} {block : Bytes} (h : build contexts = .ok block) :
    tableSize contexts.length < 65536
      ∧ (tableOf contexts).pool.size ≤ maxPoolSize
      ∧ ¬ (place 2 (chains (tableSize contexts.length) contexts)).length
          < (chains (tableSize contexts.length) contexts).length
      ∧ block = Bytes.ofWord16 (UInt16.ofNat (tableSize contexts.length))
          ++ ((tableOf contexts).places.toList.flatMap Bytes.ofWord16
            ++ (tableOf contexts).pool.toList) := by
  simp only [build] at h
  split at h
  · cases h
  · next hbuckets =>
    split at h
    · cases h
    · next hroom =>
      rw [Bool.or_eq_true, decide_eq_true_eq, decide_eq_true_eq, not_or] at hroom
      refine ⟨by omega, Nat.le_of_not_lt hroom.1, hroom.2, ?_⟩
      rw [← Except.ok.inj h, List.append_assoc]
      rfl

theorem bucketCount_tableOf (contexts : List Bytes) :
    (tableOf contexts).bucketCount = tableSize contexts.length := size_placesOf _ _

theorem length_places (contexts : List Bytes) :
    (tableOf contexts).places.toList.length = tableSize contexts.length := by
  rw [Array.length_toList]
  exact size_placesOf _ _

theorem length_of_build {contexts : List Bytes} {block : Bytes} (h : build contexts = .ok block) :
    block.length ≤ 2 + 2 * 65535 + maxPoolSize := by
  obtain ⟨hbuckets, hpool, -, rfl⟩ := build_eq_ok h
  rw [← Array.length_toList] at hpool
  rw [List.length_append, List.length_append, Bytes.length_ofWord16, Bytes.length_flatMap_ofWord16,
    length_places]
  omega

theorem parse_build {contexts : List Bytes} {block : Bytes} (h : build contexts = .ok block) :
    parse block = .ok (tableOf contexts) := by
  obtain ⟨hbuckets, -, -, rfl⟩ := build_eq_ok h
  have hword : (UInt16.ofNat (tableSize contexts.length)).toNat = tableSize contexts.length :=
    UInt16.toNat_ofNat_of_lt' hbuckets
  have hlength : 2 * (UInt16.ofNat (tableSize contexts.length)).toNat
      = ((tableOf contexts).places.toList.flatMap Bytes.ofWord16).length := by
    rw [Bytes.length_flatMap_ofWord16, length_places, hword]
  simp only [Bytes.ofWord16, List.cons_append, List.nil_append, parse, Bytes.word16_digits]
  rw [hlength, Bytes.take?_append]
  simp only [Bytes.words16_flatMap_ofWord16, Array.toArray_toList]

theorem tableSize_pos (contexts : Nat) : 0 < tableSize contexts := by
  unfold tableSize
  grind

theorem bucketOf_lt {contexts : List Bytes} (context : Bytes) :
    bucketOf (tableSize contexts.length) context < tableSize contexts.length :=
  Nat.mod_lt _ (tableSize_pos _)

/-- The chain of a run has a place, which its bucket leads to. -/
theorem getElem?_places {contexts : List Bytes} {block : Bytes} (h : build contexts = .ok block)
    {run : List (Nat × Bytes)}
    (hrun : run ∈ runs (bucketed (tableSize contexts.length) contexts)) {item : Nat × Bytes}
    (hitem : item ∈ run) :
    ∃ offset, (Chain.of run, offset) ∈ place 2 (chains (tableSize contexts.length) contexts)
      ∧ (tableOf contexts).places[item.1]? = some (UInt16.ofNat (offset / 2)) := by
  have hplaced := map_fst_place (build_eq_ok h).2.2.1
  have hbuckets : ((place 2 (chains (tableSize contexts.length) contexts)).map fun p =>
      p.1.bucket) = (runs (bucketed (tableSize contexts.length) contexts)).map runBucket := by
    calc (place 2 (chains (tableSize contexts.length) contexts)).map (fun p => p.1.bucket)
        = ((place 2 (chains (tableSize contexts.length) contexts)).map Prod.fst).map
            Chain.bucket := List.map_map.symm
      _ = (chains (tableSize contexts.length) contexts).map Chain.bucket := by rw [hplaced]
      _ = (runs (bucketed (tableSize contexts.length) contexts)).map runBucket := List.map_map
  -- no later chain takes the bucket over
  have hdistinct : ((place 2 (chains (tableSize contexts.length) contexts)).map fun p =>
      p.1.bucket).Nodup := by
    rw [hbuckets]
    exact (pairwise_runs (pairwise_bucketed _ _)).imp Nat.ne_of_lt
  have hchain : Chain.of run ∈ (place 2 (chains (tableSize contexts.length) contexts)).map
      Prod.fst := by
    rw [hplaced]
    exact List.mem_map_of_mem hrun
  obtain ⟨⟨chain, offset⟩, hmem, heq⟩ := List.mem_map.mp hchain
  obtain rfl : chain = Chain.of run := heq
  obtain ⟨c, -, -, hc⟩ := mem_bucketed.mp (mem_runs.mpr ⟨run, hrun, hitem⟩)
  have hitem := bucket_of_mem_run hrun hitem
  have hbound : (Chain.of run).bucket < tableSize contexts.length := by
    rw [bucket_chain, ← hitem, ← hc]
    exact bucketOf_lt _
  refine ⟨offset, hmem, ?_⟩
  rw [hitem]
  exact getElem?_of_mem_placed hdistinct hmem hbound

/-- The place of a run is half the offset of its chain, and is not that of an
empty bucket. -/
theorem exists_place {contexts : List Bytes} {block : Bytes} (h : build contexts = .ok block)
    {run : List (Nat × Bytes)}
    (hrun : run ∈ runs (bucketed (tableSize contexts.length) contexts)) {item : Nat × Bytes}
    (hitem : item ∈ run) :
    ∃ word : UInt16, (tableOf contexts).places[item.1]? = some word ∧ word ≠ 0
      ∧ (Chain.of run, 2 * word.toNat)
        ∈ place 2 (chains (tableSize contexts.length) contexts) := by
  obtain ⟨offset, hmem, hplace⟩ := getElem?_places h hrun hitem
  obtain ⟨hsmall, front, back, -, hoffset⟩ := mem_place hmem
  have heven : offset % 2 = 0 := by
    refine even_of_mem_place ?_ rfl hmem
    intro chain hchain
    obtain ⟨run, -, rfl⟩ := List.mem_map.mp hchain
    exact even_length_evened _
  have hword : (UInt16.ofNat (offset / 2)).toNat = offset / 2 := UInt16.toNat_ofNat_of_lt' hsmall
  have htwice : 2 * (offset / 2) = offset := by omega
  refine ⟨_, hplace, ?_, ?_⟩
  · -- a place of zero would mean an empty bucket, but the pool begins with two zeros
    intro hzero
    have hzero := congrArg UInt16.toNat hzero
    rw [hword, UInt16.toNat_zero] at hzero
    omega
  · rw [hword, htwice]
    exact hmem

/-- A look-up in a bucket that has a run compares with the contexts of the
run. -/
theorem contains_of_run {contexts : List Bytes} {block : Bytes} (h : build contexts = .ok block)
    {context : Bytes} (hne : context ≠ []) {run : List (Nat × Bytes)}
    (hrun : run ∈ runs (bucketed (tableSize contexts.length) contexts)) {item : Nat × Bytes}
    (hitem : item ∈ run)
    (hbucket : item.1 = bucketOf (tableSize contexts.length) (storedPart context)) :
    (tableOf contexts).contains context = (run.map Prod.snd).contains (storedPart context) := by
  obtain ⟨word, hplace, hword, hmem⟩ := exists_place h hrun hitem
  have hlistable : ∀ c ∈ run, IsListable c.2 := by
    intro c hc
    obtain ⟨d, -, hd, rfl⟩ := mem_bucketed.mp (mem_runs.mpr ⟨run, hrun, hc⟩)
    exact isListable_storedPart hd
  have hempty : (storedPart context).isEmpty = false :=
    List.isEmpty_eq_false_iff.mpr (isListable_storedPart hne).1
  simp only [contains, hempty, bucketCount_tableOf, ← hbucket, hplace, hword, if_false,
    Bool.false_eq_true]
  exact chainHas_chain hmem hlistable _

/-- A bucket without a run has no place. -/
theorem getElem?_places_of_no_run {contexts : List Bytes} {bucket : Nat}
    (hbucket : bucket < tableSize contexts.length)
    (h : ∀ item ∈ bucketed (tableSize contexts.length) contexts, item.1 ≠ bucket) :
    (tableOf contexts).places[bucket]? = some 0 := by
  have hnone : ∀ p ∈ place 2 (chains (tableSize contexts.length) contexts),
      p.1.bucket ≠ bucket := by
    intro p hp
    obtain ⟨run, hrun, hchain⟩ := List.mem_map.mp (fst_mem_of_mem_place hp)
    obtain ⟨item, hitem⟩ := List.exists_mem_of_ne_nil run (List.ne_nil_of_mem_splitBy hrun)
    rw [← hchain, bucket_chain, ← bucket_of_mem_run hrun hitem]
    exact h item (mem_runs.mpr ⟨run, hrun, hitem⟩)
  show (placesOf _ _)[_]? = _
  rw [placesOf_eq, getElem?_foldl_setPlace hnone, Array.getElem?_replicate, if_pos hbucket]

theorem contains_of_no_run {contexts : List Bytes} {context : Bytes} (hne : context ≠ [])
    (h : ∀ item ∈ bucketed (tableSize contexts.length) contexts,
      item.1 ≠ bucketOf (tableSize contexts.length) (storedPart context)) :
    (tableOf contexts).contains context = false := by
  have hempty : (storedPart context).isEmpty = false :=
    List.isEmpty_eq_false_iff.mpr (isListable_storedPart hne).1
  have hbucket : bucketOf (tableSize contexts.length) (storedPart context)
      < tableSize contexts.length := bucketOf_lt _
  have hplace := getElem?_places_of_no_run hbucket h
  simp only [contains, hempty, bucketCount_tableOf, hplace, if_true, if_false, Bool.false_eq_true]

/-- A table knows the empty context and those that are listed, as far as
their first 255 bytes tell. -/
theorem contains_tableOf {contexts : List Bytes} {block : Bytes} (h : build contexts = .ok block)
    (context : Bytes) :
    (tableOf contexts).contains context
      ↔ context = [] ∨ ∃ c ∈ contexts, c ≠ [] ∧ storedPart c = storedPart context := by
  by_cases hne : context = []
  · subst hne
    exact iff_of_true rfl (.inl rfl)
  rw [or_iff_right hne]
  constructor
  · intro hcontains
    by_cases hbucket : ∃ item ∈ bucketed (tableSize contexts.length) contexts,
        item.1 = bucketOf (tableSize contexts.length) (storedPart context)
    · obtain ⟨item, hmem, hitem⟩ := hbucket
      obtain ⟨run, hrun, hmem⟩ := mem_runs.mp hmem
      rw [contains_of_run h hne hrun hmem hitem, List.contains_iff_mem] at hcontains
      obtain ⟨found, hfound, hpart⟩ := List.mem_map.mp hcontains
      obtain ⟨c, hc, hcne, rfl⟩ := mem_bucketed.mp (mem_runs.mpr ⟨run, hrun, hfound⟩)
      exact ⟨c, hc, hcne, hpart⟩
    · have hnone := contains_of_no_run hne fun item hmem hitem => hbucket ⟨item, hmem, hitem⟩
      rw [hnone] at hcontains
      cases hcontains
  · rintro ⟨c, hc, hcne, hpart⟩
    have hitem : (bucketOf (tableSize contexts.length) (storedPart c), storedPart c)
        ∈ bucketed (tableSize contexts.length) contexts := mem_bucketed.mpr ⟨c, hc, hcne, rfl⟩
    obtain ⟨run, hrun, hmem⟩ := mem_runs.mp hitem
    rw [contains_of_run h hne hrun hmem (by rw [hpart]), List.contains_iff_mem, ← hpart]
    exact List.mem_map_of_mem hmem

/-! ## Room for a table -/

/-- Chains that the pool has room for all have a place. -/
theorem map_fst_place_of_fits {chains : List Chain} (hne : ∀ c ∈ chains, c.bytes ≠ []) :
    ∀ {start : Nat}, start + (chains.map fun c => c.bytes.length).sum ≤ maxPoolSize →
      (place start chains).map Prod.fst = chains := by
  induction chains with
  | nil => exact fun _ => rfl
  | cons first rest ih =>
      intro start h
      rw [List.map_cons, List.sum_cons] at h
      have hfirst := List.length_pos_iff.mpr (hne first List.mem_cons_self)
      have hsmall : start / 2 < 65536 := by
        unfold maxPoolSize at h
        omega
      rw [place, if_pos hsmall, List.map_cons,
        ih (fun c hc => hne c (List.mem_cons_of_mem _ hc)) (by omega)]

/-- The size of a pool with the chains of all contexts. -/
def poolSize (contexts : List Bytes) : Nat :=
  2 + ((chains (tableSize contexts.length) contexts).map fun c => c.bytes.length).sum

/-- The buckets of some contexts can be numbered, and the largest pool has
room for all chains. -/
def Fits (contexts : List Bytes) : Prop :=
  tableSize contexts.length ≤ 65535 ∧ poolSize contexts ≤ maxPoolSize

theorem length_poolOf {chains : List Chain} (h : (place 2 chains).map Prod.fst = chains) :
    (poolOf (place 2 chains)).length = 2 + (chains.map fun c => c.bytes.length).sum := by
  conv_rhs => rw [← h, List.map_map]
  rw [poolOf, List.length_cons, List.length_cons, List.length_flatMap, Nat.add_comm 2]
  rfl

/-- A table is built exactly if it fits. -/
theorem exists_build_iff {contexts : List Bytes} :
    (∃ block, build contexts = .ok block) ↔ Fits contexts := by
  constructor
  · rintro ⟨block, h⟩
    obtain ⟨hbuckets, hpool, hplaced, -⟩ := build_eq_ok h
    refine ⟨by omega, ?_⟩
    rw [poolSize, ← length_poolOf (map_fst_place hplaced)]
    exact hpool
  · rintro ⟨hbuckets, hpool⟩
    have hne : ∀ c ∈ chains (tableSize contexts.length) contexts, c.bytes ≠ [] := by
      intro chain hchain
      obtain ⟨run, -, rfl⟩ := List.mem_map.mp hchain
      obtain ⟨pad, hbytes⟩ := bytes_chain run
      rw [hbytes]
      exact List.append_ne_nil_of_right_ne_nil _ (List.cons_ne_nil _ _)
    have hplaced := map_fst_place_of_fits hne hpool
    have hlength : (poolOf (place 2 (chains (tableSize contexts.length) contexts))).length
        = poolSize contexts := length_poolOf hplaced
    have hcount := congrArg List.length hplaced
    rw [List.length_map] at hcount
    simp only [build, if_neg (Nat.not_lt.mpr hbuckets)]
    split
    · next hlarge =>
      rw [Bool.or_eq_true, decide_eq_true_eq, decide_eq_true_eq] at hlarge
      omega
    · exact ⟨_, rfl⟩

/-! ## Sizes of pools -/

/-- The room for a context: its length, its bytes, and the zero that ends its
chain with the one that may fill it up. -/
def roomFor (context : Bytes) : Nat := context.length + 3

/-- A chain takes a length and the bytes for each of its contexts and a zero,
and is filled up to an even size. -/
theorem length_chain {run : List (Nat × Bytes)} {size : Nat}
    (h : 1 + (run.map fun c => c.2.length + 1).sum = size) :
    (Chain.of run).bytes.length = size + size % 2 := by
  have hlisted : (run.flatMap fun c => listed c.2).length
      = (run.map fun c => c.2.length + 1).sum := List.length_flatMap
  show (evened ((run.flatMap fun c => listed c.2) ++ [0])).length = _
  rw [length_evened, List.length_append, List.length_singleton, hlisted, Nat.add_comm _ 1, h]

theorem length_chain_le {run : List (Nat × Bytes)} (h : run ≠ []) :
    (Chain.of run).bytes.length ≤ (run.map fun c => roomFor c.2).sum := by
  match run with
  | first :: rest =>
      have hrest : (rest.map fun c => c.2.length + 1).sum ≤ (rest.map fun c => roomFor c.2).sum :=
        List.sum_le_sum fun c _ => Nat.add_le_add_left (by omega) _
      rw [length_chain rfl, List.map_cons, List.sum_cons, List.map_cons, List.sum_cons, roomFor]
      omega

/-- The chains of the runs make up the pool. -/
theorem poolSize_eq (contexts : List Bytes) :
    poolSize contexts = 2 + ((runs (bucketed (tableSize contexts.length) contexts)).map fun run =>
      (Chain.of run).bytes.length).sum := by
  rw [poolSize, chains, List.map_map]
  rfl

/-- What is added up over the contexts of every run is added up over all
contexts that are listed. -/
theorem sum_runs (buckets : Nat) (contexts : List Bytes) (size : Bytes → Nat) :
    ((runs (bucketed buckets contexts)).map fun run => (run.map fun c => size c.2).sum).sum
      = ((contexts.filter fun c => !c.isEmpty).map fun c => size (storedPart c)).sum := by
  calc ((runs (bucketed buckets contexts)).map fun run => (run.map fun c => size c.2).sum).sum
      = ((bucketed buckets contexts).map fun c => size c.2).sum := by
        conv_rhs => rw [← List.flatten_splitBy (fun a b => a.1 == b.1) (bucketed buckets contexts)]
        rw [List.map_flatten, List.sum_flatten, List.map_map]
        rfl
    _ = ((contexts.filter fun c => !c.isEmpty).map fun c => size (storedPart c)).sum := by
        rw [bucketed, ((List.mergeSort_perm _ _).map _).sum_nat, List.map_map]
        rfl

theorem poolSize_le (contexts : List Bytes) :
    poolSize contexts ≤ 2 + (contexts.map fun c => roomFor (storedPart c)).sum := by
  rw [poolSize_eq]
  refine Nat.add_le_add_left ?_ 2
  calc ((runs (bucketed (tableSize contexts.length) contexts)).map fun run =>
          (Chain.of run).bytes.length).sum
      ≤ ((runs (bucketed (tableSize contexts.length) contexts)).map fun run =>
          (run.map fun c => roomFor c.2).sum).sum :=
        List.sum_le_sum fun run hrun => length_chain_le (List.ne_nil_of_mem_splitBy hrun)
    _ = ((contexts.filter fun c => !c.isEmpty).map fun c => roomFor (storedPart c)).sum :=
        sum_runs _ _ _
    _ ≤ (contexts.map fun c => roomFor (storedPart c)).sum :=
        (List.filter_sublist.map _).sum_le_sum fun _ _ => Nat.zero_le _

theorem le_poolSize (contexts : List Bytes) :
    2 + ((contexts.filter fun c => !c.isEmpty).map fun c => (storedPart c).length + 1).sum
      ≤ poolSize contexts := by
  rw [poolSize_eq]
  refine Nat.add_le_add_left ?_ 2
  calc ((contexts.filter fun c => !c.isEmpty).map fun c => (storedPart c).length + 1).sum
      = ((runs (bucketed (tableSize contexts.length) contexts)).map fun run =>
          (run.map fun c => c.2.length + 1).sum).sum := (sum_runs _ _ fun c => c.length + 1).symm
    _ ≤ ((runs (bucketed (tableSize contexts.length) contexts)).map fun run =>
          (Chain.of run).bytes.length).sum :=
        List.sum_le_sum fun run _ => by
          rw [length_chain rfl]
          omega

/-- Contexts of 255 bytes and more take 256 bytes of a pool each, so there is
no room for 512 of them. -/
theorem not_fits_of_long {contexts : List Bytes}
    (hlong : ∀ context ∈ contexts, 255 ≤ context.length) (hmany : 512 ≤ contexts.length) :
    ¬ Fits contexts := by
  rintro ⟨-, hpool⟩
  have hlisted : contexts.filter (fun c => !c.isEmpty) = contexts := by
    refine List.filter_eq_self.mpr ?_
    intro context hcontext
    have hlength := hlong context hcontext
    cases context with
    | nil => cases hlength
    | cons => rfl
  have hsum : (contexts.map fun c => (storedPart c).length + 1).length • 256
      ≤ (contexts.map fun c => (storedPart c).length + 1).sum := by
    refine List.card_nsmul_le_sum _ _ ?_
    intro size hsize
    obtain ⟨context, hcontext, rfl⟩ := List.mem_map.mp hsize
    have hlength := hlong context hcontext
    rw [storedPart, List.length_take]
    omega
  have hle := le_poolSize contexts
  rw [List.length_map, smul_eq_mul] at hsum
  rw [hlisted] at hle
  unfold maxPoolSize at hpool
  omega

theorem sum_distinct_le (strings : List Bytes) (size : Bytes → Nat) :
    ((distinct strings).map size).sum ≤ (strings.map size).sum := by
  rw [distinct, eraseReps_eq_destutter]
  calc _ ≤ ((strings.mergeSort fun a b => (compare a b).isLE).map size).sum :=
        ((List.destutter_sublist _ _).map size).sum_le_sum fun _ _ => Nat.zero_le _
    _ = (strings.map size).sum := ((List.mergeSort_perm _ _).map size).sum_nat

/-- Contexts whose buckets can be numbered and which the pool has room for
have a table. -/
theorem exists_build {contexts : List Bytes}
    (hbuckets : tableSize contexts.toFinset.card ≤ 65535)
    (hpool : 2 + (contexts.map fun c => roomFor (storedPart c)).sum ≤ maxPoolSize) :
    ∃ block, build (distinct contexts) = .ok block := by
  rw [← length_distinct] at hbuckets
  refine exists_build_iff.mpr ⟨hbuckets, ?_⟩
  calc _ ≤ 2 + ((distinct contexts).map fun c => roomFor (storedPart c)).sum := poolSize_le _
    _ ≤ 2 + (contexts.map fun c => roomFor (storedPart c)).sum :=
        Nat.add_le_add_left (sum_distinct_le _ _) 2
    _ ≤ maxPoolSize := hpool

/-- A built table is read with as many buckets as its contexts ask for.  It
knows the empty context and those that have the first 255 bytes of one that
it was built from. -/
theorem contains_iff_of_build {contexts : List Bytes} {block : Bytes}
    (h : build (distinct contexts) = .ok block) :
    ∃ table, parse block = .ok table
      ∧ table.bucketCount = tableSize contexts.toFinset.card
      ∧ ∀ asked, table.contains asked
          ↔ asked = [] ∨ ∃ context ∈ contexts, context ≠ [] ∧ context.take 255 = asked.take 255 := by
  refine ⟨tableOf (distinct contexts), parse_build h, ?_, ?_⟩
  · rw [bucketCount_tableOf, length_distinct]
  · intro asked
    rw [contains_tableOf h]
    simp only [mem_distinct, storedPart]

/-- Contexts of which two share a bucket, and one is listed twice. -/
def crowded : List Bytes := [[67], [218], [], [77], [67]]

theorem exists_build_crowded : ∃ block, build (distinct crowded) = .ok block :=
  exists_build (by decide) (by decide)

theorem contains_iff_of_build_crowded :
    ∃ block table, build (distinct crowded) = .ok block ∧ parse block = .ok table
      ∧ table.bucketCount = 151
      ∧ table.contains [67] ∧ table.contains [218] ∧ ¬table.contains [67, 0] := by
  obtain ⟨block, h⟩ := exists_build_crowded
  obtain ⟨table, hparse, hcount, hcontains⟩ := contains_iff_of_build h
  refine ⟨block, table, h, hparse, hcount.trans (by decide), ?_, ?_, ?_⟩
  · exact (hcontains _).mpr (by decide)
  · exact (hcontains _).mpr (by decide)
  · exact fun hfound => absurd ((hcontains _).mp hfound) (by decide)

end ContextTable

end MessageCatalog.Compiled
