/-
# `MessageCatalog.Proofs.ContextLayout` — where the chains of a context table lie

The chains stand in the pool by ascending bucket, one behind the other, and
the first one behind two bytes.  So the chain of a bucket begins at

    chainStart contexts bucket
      = 2 + the sizes of the chains of all smaller buckets that list a context

and the chain of a bucket behind the last one would begin where the pool ends.
Two limits meet there: a place is half an offset in 16 bits, and a pool has at
most 131072 bytes.  A chain that cannot be given a place would begin at the
limit of the pool or behind it, so the pool of all chains is too large then,
and whether there is a table depends on the size of that pool alone.
-/
import Mathlib.Algebra.BigOperators.Group.Finset.Basic
import MessageCatalog.Proofs.ContextTable

namespace MessageCatalog.Compiled.ContextTable

/-! ## Buckets -/

/-- The contexts that a bucket lists: those with its hash, but not the empty
one. -/
def inBucket (contexts : Finset Bytes) (bucket : Nat) : Finset Bytes :=
  contexts.filter fun c => c ≠ [] ∧ bucketOf (tableSize contexts.card) (storedPart c) = bucket

/-- A size filled up to an even number. -/
def roundedUp (size : Nat) : Nat := size + size % 2

/-- The size of the chain of a bucket that lists some context: a length and
the part that counts for each of them, and a zero at the end. -/
def chainSize (contexts : Finset Bytes) (bucket : Nat) : Nat :=
  roundedUp (1 + ∑ c ∈ inBucket contexts bucket, (1 + min 255 c.length))

/-- Where the chain of a bucket begins in the pool. -/
def chainStart (contexts : Finset Bytes) (bucket : Nat) : Nat :=
  2 + ∑ b ∈ Finset.range bucket with (inBucket contexts b).Nonempty, chainSize contexts b

/-- The size of a pool with the chains of all buckets. -/
def neededPool (contexts : Finset Bytes) : Nat :=
  2 + ∑ b ∈ Finset.range (tableSize contexts.card) with (inBucket contexts b).Nonempty,
    chainSize contexts b

/-! ## Runs of sorted contexts -/

theorem filter_flatten_eq_nil {lists : List (List (Nat × Bytes))} {bucket : Nat}
    (h : ∀ run ∈ lists, ∀ item ∈ run, item.1 ≠ bucket) :
    lists.flatten.filter (fun item => item.1 == bucket) = [] := by
  refine List.filter_eq_nil_iff.mpr ?_
  intro item hitem
  obtain ⟨run, hrun, hmem⟩ := List.mem_flatten.mp hitem
  exact fun heq => h run hrun item hmem (beq_iff_eq.mp heq)

/-- A run of a sorted list has all of its items with that bucket. -/
theorem filter_of_mem_runs {items : List (Nat × Bytes)}
    (h : items.Pairwise fun a b => a.1 ≤ b.1) {run : List (Nat × Bytes)}
    (hrun : run ∈ runs items) : items.filter (fun item => item.1 == runBucket run) = run := by
  have hbuckets := pairwise_runs h
  obtain ⟨before, after, hsplit⟩ := List.append_of_mem hrun
  have hmem : ∀ other ∈ before ++ run :: after, ∀ item ∈ other, item.1 = runBucket other :=
    fun other hother item => bucket_of_mem_run (hsplit ▸ hother)
  rw [hsplit, List.map_append, List.map_cons, List.pairwise_append, List.pairwise_cons] at hbuckets
  have hbefore : before.flatten.filter (fun item => item.1 == runBucket run) = [] := by
    refine filter_flatten_eq_nil ?_
    intro other hother item hitem
    rw [hmem other (List.mem_append_left _ hother) item hitem]
    exact Nat.ne_of_lt (hbuckets.2.2 _ (List.mem_map_of_mem hother) _ List.mem_cons_self)
  have hafter : after.flatten.filter (fun item => item.1 == runBucket run) = [] := by
    refine filter_flatten_eq_nil ?_
    intro other hother item hitem
    rw [hmem other (List.mem_append_right _ (List.mem_cons_of_mem _ hother)) item hitem]
    exact Nat.ne_of_gt (hbuckets.2.1.1 _ (List.mem_map_of_mem hother))
  have hself : run.filter (fun item => item.1 == runBucket run) = run := by
    refine List.filter_eq_self.mpr ?_
    intro item hitem
    exact beq_iff_eq.mpr (bucket_of_mem_run hrun hitem)
  have hitems : items = (before ++ run :: after).flatten := by
    rw [← hsplit]
    exact (List.flatten_splitBy _ items).symm
  rw [hitems, List.flatten_append, List.flatten_cons, List.filter_append, List.filter_append,
    hbefore, hafter, hself, List.nil_append, List.append_nil]

section

variable {contexts : List Bytes} (hnodup : contexts.Nodup)
include hnodup

/-- A run lists what counts of the contexts of its bucket, each once. -/
theorem coe_map_run {run : List (Nat × Bytes)}
    (hrun : run ∈ runs (bucketed (tableSize contexts.length) contexts)) :
    ((run.map Prod.snd : List Bytes) : Multiset Bytes)
      = (inBucket contexts.toFinset (runBucket run)).val.map storedPart := by
  have hcontexts : contexts.toFinset.val = (contexts : Multiset Bytes) := by
    rw [List.toFinset_val, hnodup.dedup]
  have hperm := ((List.mergeSort_perm ((contexts.filter fun c => !c.isEmpty).map fun c =>
    (bucketOf (tableSize contexts.length) (storedPart c), storedPart c)) fun a b =>
      (compareLex (compareOn Prod.fst) (compareOn Prod.snd) a b).isLE).filter
        fun item => item.1 == runBucket run).map Prod.snd
  have hrun := filter_of_mem_runs (pairwise_bucketed _ _) hrun
  rw [bucketed] at hrun
  rw [hrun] at hperm
  rw [inBucket, Finset.filter_val, hcontexts, List.toFinset_card_of_nodup hnodup,
    Multiset.filter_coe, Multiset.map_coe, Multiset.coe_eq_coe]
  refine hperm.trans (List.Perm.of_eq ?_)
  rw [List.filter_map, List.map_map, List.filter_filter]
  refine congrArg (List.map storedPart) (List.filter_congr ?_)
  intro c _
  rw [Bool.eq_iff_iff]
  simp [and_comm]

/-- The runs are the buckets that list some context. -/
theorem mem_map_runBucket {bucket : Nat} :
    bucket ∈ (runs (bucketed (tableSize contexts.length) contexts)).map runBucket
      ↔ (inBucket contexts.toFinset bucket).Nonempty := by
  rw [List.mem_map]
  constructor
  · rintro ⟨run, hrun, rfl⟩
    have hcoe := coe_map_run hnodup hrun
    rw [Finset.nonempty_iff_ne_empty]
    intro hempty
    rw [hempty, Finset.empty_val, Multiset.map_zero, Multiset.coe_eq_zero, List.map_eq_nil_iff]
      at hcoe
    exact List.ne_nil_of_mem_splitBy hrun hcoe
  · rintro ⟨context, hcontext⟩
    obtain ⟨hmem, hne, hbucket⟩ := Finset.mem_filter.mp hcontext
    rw [List.toFinset_card_of_nodup hnodup] at hbucket
    obtain ⟨run, hrun, hitem⟩ := mem_runs.mp
      (mem_bucketed.mpr ⟨context, List.mem_toFinset.mp hmem, hne, rfl⟩)
    exact ⟨run, hrun, (bucket_of_mem_run hrun hitem).symm.trans hbucket⟩

/-! ## Sizes -/

theorem length_chain_of_mem_runs {run : List (Nat × Bytes)}
    (hrun : run ∈ runs (bucketed (tableSize contexts.length) contexts)) :
    (Chain.of run).bytes.length = chainSize contexts.toFinset (runBucket run) := by
  have hsum : (run.map fun c => c.2.length + 1).sum
      = ∑ c ∈ inBucket contexts.toFinset (runBucket run), (1 + min 255 c.length) := by
    calc (run.map fun c => c.2.length + 1).sum
        = (((run.map Prod.snd : List Bytes) : Multiset Bytes).map fun c => c.length + 1).sum := by
          rw [Multiset.map_coe, Multiset.sum_coe, List.map_map]
          rfl
      _ = ((inBucket contexts.toFinset (runBucket run)).val.map fun c =>
            1 + min 255 c.length).sum := by
          rw [coe_map_run hnodup hrun, Multiset.map_map]
          simp only [Function.comp_def, storedPart, List.length_take, Nat.add_comm]
  exact length_chain (congrArg (1 + ·) hsum)

/-- The chains of the smaller buckets take up what lies in front of a bucket. -/
theorem sum_chains_below (bucket : Nat) :
    (((chains (tableSize contexts.length) contexts).filter fun chain =>
        decide (chain.bucket < bucket)).map fun chain => chain.bytes.length).sum
      = ∑ b ∈ Finset.range bucket with (inBucket contexts.toFinset b).Nonempty,
          chainSize contexts.toFinset b := by
  have hdistinct : ((runs (bucketed (tableSize contexts.length) contexts)).map runBucket).Nodup :=
    (pairwise_runs (pairwise_bucketed _ _)).imp Nat.ne_of_lt
  have hbuckets : (((runs (bucketed (tableSize contexts.length) contexts)).map runBucket).filter
      fun b => decide (b < bucket)).toFinset
        = {b ∈ Finset.range bucket | (inBucket contexts.toFinset b).Nonempty} := by
    ext b
    rw [List.mem_toFinset, List.mem_filter, mem_map_runBucket hnodup, Finset.mem_filter,
      Finset.mem_range, decide_eq_true_eq, and_comm]
  calc (((chains (tableSize contexts.length) contexts).filter fun chain =>
          decide (chain.bucket < bucket)).map fun chain => chain.bytes.length).sum
      = (((runs (bucketed (tableSize contexts.length) contexts)).filter fun run =>
          decide (runBucket run < bucket)).map fun run => (Chain.of run).bytes.length).sum := by
        rw [chains, List.filter_map, List.map_map]
        rfl
    _ = (((runs (bucketed (tableSize contexts.length) contexts)).filter fun run =>
          decide (runBucket run < bucket)).map fun run =>
            chainSize contexts.toFinset (runBucket run)).sum := by
        refine congrArg List.sum (List.map_congr_left ?_)
        intro run hrun
        exact length_chain_of_mem_runs hnodup (List.mem_filter.mp hrun).1
    _ = ((((runs (bucketed (tableSize contexts.length) contexts)).map runBucket).filter
          fun b => decide (b < bucket)).map (chainSize contexts.toFinset)).sum := by
        rw [List.filter_map, List.map_map]
        rfl
    _ = _ := by
        rw [← hbuckets, List.sum_toFinset _ (hdistinct.filter _)]

/-! ## Offsets -/

omit hnodup in
/-- A chain stands behind all chains of smaller buckets. -/
theorem offset_of_mem_place {chains : List Chain}
    (h : (chains.map Chain.bucket).Pairwise (· < ·)) {start offset : Nat} {chain : Chain}
    (hmem : (chain, offset) ∈ place start chains) :
    offset = start + ((chains.filter fun other => decide (other.bucket < chain.bucket)).map
      fun other => other.bytes.length).sum := by
  induction chains generalizing start with
  | nil => cases hmem
  | cons first rest ih =>
      rw [List.map_cons, List.pairwise_cons] at h
      have hlater : ∀ other ∈ rest, first.bucket < other.bucket :=
        fun other hother => h.1 _ (List.mem_map_of_mem hother)
      rw [place] at hmem
      split at hmem
      · rcases List.mem_cons.mp hmem with heq | hrest
        · obtain ⟨rfl, rfl⟩ := Prod.mk.inj heq
          have hnone : (chain :: rest).filter (fun other => decide (other.bucket < chain.bucket))
              = [] := by
            refine List.filter_eq_nil_iff.mpr ?_
            intro other hother
            rw [decide_eq_true_eq]
            rcases List.mem_cons.mp hother with rfl | hother
            · exact Nat.lt_irrefl _
            · exact Nat.lt_asymm (hlater other hother)
          rw [hnone]
          rfl
        · have hfirst := hlater chain (fst_mem_of_mem_place hrest)
          rw [ih h.2 hrest, List.filter_cons_of_pos (by exact decide_eq_true hfirst), List.map_cons,
            List.sum_cons, Nat.add_assoc]
      · cases hmem

theorem offset_of_run {run : List (Nat × Bytes)} {offset : Nat}
    (h : (Chain.of run, offset) ∈ place 2 (chains (tableSize contexts.length) contexts)) :
    offset = chainStart contexts.toFinset (runBucket run) := by
  have hbuckets : ((chains (tableSize contexts.length) contexts).map Chain.bucket).Pairwise
      (· < ·) := by
    rw [chains, List.map_map]
    exact pairwise_runs (pairwise_bucketed _ _)
  rw [offset_of_mem_place hbuckets h, chainStart, ← sum_chains_below hnodup]
  rfl

theorem poolSize_eq_neededPool : poolSize contexts = neededPool contexts.toFinset := by
  have hall : (chains (tableSize contexts.length) contexts).filter (fun chain =>
      decide (chain.bucket < tableSize contexts.length))
        = chains (tableSize contexts.length) contexts := by
    refine List.filter_eq_self.mpr ?_
    intro chain hchain
    obtain ⟨run, hrun, rfl⟩ := List.mem_map.mp hchain
    obtain ⟨item, hitem⟩ := List.exists_mem_of_ne_nil run (List.ne_nil_of_mem_splitBy hrun)
    obtain ⟨c, -, -, hc⟩ := mem_bucketed.mp (mem_runs.mpr ⟨run, hrun, hitem⟩)
    rw [decide_eq_true_eq, bucket_chain, ← bucket_of_mem_run hrun hitem, ← hc]
    exact bucketOf_lt _
  rw [neededPool, List.toFinset_card_of_nodup hnodup, ← sum_chains_below hnodup, hall, poolSize]

end

/-! ## Tables -/

/-- The place of a bucket in a table is half the offset of its chain, or zero
if it lists no context. -/
def PlacesBucket (contexts : Finset Bytes) (table : ContextTable) (bucket : Nat) : Prop :=
  ∃ word, table.places[bucket]? = some word
    ∧ if (inBucket contexts bucket).Nonempty then
        2 * word.toNat = chainStart contexts bucket
          ∧ ∃ listing : List Bytes,
              (listing : Multiset Bytes) = (inBucket contexts bucket).val.map storedPart
                ∧ listing.flatMap listed ++ [0] <+: table.pool.toList.drop (2 * word.toNat)
      else word = 0

/-- The chain of a run stands in the pool where it is placed. -/
theorem isPrefix_drop_pool {contexts : List Bytes} {run : List (Nat × Bytes)} {offset : Nat}
    (h : (Chain.of run, offset) ∈ place 2 (chains (tableSize contexts.length) contexts)) :
    (run.map Prod.snd).flatMap listed ++ [0] <+: (tableOf contexts).pool.toList.drop offset := by
  obtain ⟨-, front, back, hpool, hoffset⟩ := mem_place h
  obtain ⟨pad, hbytes⟩ := bytes_chain run
  have hlayout : (tableOf contexts).pool.toList
      = (0 :: 0 :: front) ++ ((run.map Prod.snd).flatMap listed ++ [0] ++ (pad ++ back)) := by
    show poolOf _ = _
    rw [poolOf, hpool, hbytes]
    simp only [List.append_assoc, List.cons_append, List.nil_append]
  have hlength : (0 :: 0 :: front : Bytes).length = offset := by
    rw [List.length_cons, List.length_cons]
    omega
  rw [hlayout, ← hlength, List.drop_left]
  exact List.prefix_append _ _

theorem placesBucket_of_build {contexts : List Bytes} (hnodup : contexts.Nodup) {block : Bytes}
    (h : build contexts = .ok block) {bucket : Nat}
    (hbucket : bucket < tableSize contexts.length) :
    PlacesBucket contexts.toFinset (tableOf contexts) bucket := by
  by_cases hlists : (inBucket contexts.toFinset bucket).Nonempty
  · obtain ⟨run, hrun, rfl⟩ := List.mem_map.mp ((mem_map_runBucket hnodup).mpr hlists)
    obtain ⟨item, hitem⟩ := List.exists_mem_of_ne_nil run (List.ne_nil_of_mem_splitBy hrun)
    obtain ⟨word, hplace, -, hmem⟩ := exists_place h hrun hitem
    rw [bucket_of_mem_run hrun hitem] at hplace
    refine ⟨word, hplace, ?_⟩
    rw [if_pos hlists]
    exact ⟨offset_of_run hnodup hmem, run.map Prod.snd, coe_map_run hnodup hrun,
      isPrefix_drop_pool hmem⟩
  · have hnone : ∀ item ∈ bucketed (tableSize contexts.length) contexts, item.1 ≠ bucket := by
      rintro item hitem rfl
      obtain ⟨run, hrun, hmem⟩ := mem_runs.mp hitem
      refine hlists ((mem_map_runBucket hnodup).mp (List.mem_map.mpr ⟨run, hrun, ?_⟩))
      exact (bucket_of_mem_run hrun hmem).symm
    refine ⟨0, getElem?_places_of_no_run hbucket hnone, ?_⟩
    rw [if_neg hlists]

/-- A table of contexts is left out, with a remark, exactly if its buckets
cannot be numbered or the chains of all buckets are more than the largest pool.
Otherwise the block has a table in which the place of every bucket is half of
where its chain begins. -/
theorem error_iff_and_placesBucket (contexts : List Bytes) :
    ((∃ remark, build (distinct contexts) = .error remark)
        ↔ 65535 < tableSize contexts.toFinset.card ∨ 131072 < neededPool contexts.toFinset)
      ∧ ∀ block, build (distinct contexts) = .ok block →
          block ≠ [] ∧ ∃ table, parse block = .ok table
            ∧ ∀ bucket < tableSize contexts.toFinset.card,
                PlacesBucket contexts.toFinset table bucket := by
  have hnodup := nodup_distinct contexts
  have hfits : Fits (distinct contexts)
      ↔ tableSize contexts.toFinset.card ≤ 65535 ∧ neededPool contexts.toFinset ≤ 131072 := by
    rw [Fits, poolSize_eq_neededPool hnodup, length_distinct, toFinset_distinct, maxPoolSize]
  constructor
  · rw [← Nat.not_le, ← Nat.not_le, ← not_and_or, ← hfits, ← exists_build_iff]
    cases hbuild : build (distinct contexts) with
    | error remark => simp
    | ok block => simp
  · intro block h
    refine ⟨?_, tableOf (distinct contexts), parse_build h, ?_⟩
    · rw [(build_eq_ok h).2.2.2]
      exact List.cons_ne_nil _ _
    · intro bucket hbucket
      rw [← length_distinct] at hbucket
      rw [← toFinset_distinct]
      exact placesBucket_of_build hnodup h hbucket

theorem error_iff_and_placesBucket_crowded :
    ∃ block table, build (distinct crowded) = .ok block ∧ parse block = .ok table
      ∧ neededPool crowded.toFinset = 12
      ∧ table.places[67]? = some 1 ∧ table.places[77]? = some 4 ∧ table.places[0]? = some 0 := by
  obtain ⟨hdropped, hplaced⟩ := error_iff_and_placesBucket crowded
  have hneeded : neededPool crowded.toFinset = 12 := by decide
  obtain ⟨block, h⟩ : ∃ block, build (distinct crowded) = .ok block := by
    cases hbuild : build (distinct crowded) with
    | ok block => exact ⟨block, rfl⟩
    | error remark => exact absurd (hdropped.mp ⟨remark, hbuild⟩) (by rw [hneeded]; decide)
  obtain ⟨-, table, hparse, hbuckets⟩ := hplaced block h
  -- where the chain of a bucket begins tells its place
  have hplace {bucket : Nat} {word : UInt16} (hbucket : bucket < 151)
      (hlists : (inBucket crowded.toFinset bucket).Nonempty)
      (hstart : chainStart crowded.toFinset bucket = 2 * word.toNat) :
      table.places[bucket]? = some word := by
    obtain ⟨found, hfound, hword⟩ := hbuckets bucket hbucket
    rw [if_pos hlists, hstart] at hword
    rw [hfound, UInt16.toNat_inj.mp (by omega : found.toNat = word.toNat)]
  refine ⟨block, table, h, hparse, hneeded, ?_, ?_, ?_⟩
  · exact hplace (by decide) (by decide) (by decide)
  · exact hplace (by decide) (by decide) (by decide)
  · obtain ⟨found, hfound, hword⟩ := hbuckets 0 (by decide)
    rw [if_neg (by decide)] at hword
    rw [hfound, hword]

end MessageCatalog.Compiled.ContextTable
