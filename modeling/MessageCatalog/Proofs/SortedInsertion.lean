/-
# `MessageCatalog.Proofs.SortedInsertion` — entries put in one by one

Where a new entry goes is found by a scan that scores every run of entries
of its file and context.  In a store that was built in this way there is one
such run at most, and the scan can only end in one place:

    before ++ lower ++ upper ++ behind
                     ↑
where `lower` and `upper` are the run, cut behind the last entry whose line
is not behind the new one.  So putting in entries one by one sorts them: by
the first arrival of their file and context, then by their lines, and stably
(`IsStableGrouping`).

That every step meets such a store is what the step itself keeps.
-/
import Mathlib.Data.List.Basic
import Mathlib.Data.List.Induction
import MessageCatalog.Catalog.Sorted

namespace MessageCatalog

/-! ## Places -/

/-- What the entries of a run have in common: the steps of the file name, if
there is one, and the context. -/
def Entry.place (entry : Entry) : Option (List Path.Component) × String :=
  (entry.file.map Path.components, entry.context)

theorem Entry.place_eq_iff {a b : Entry} :
    a.place = b.place ↔ sameFile a.file b.file = true ∧ a.context = b.context := by
  unfold place
  rw [Prod.mk.injEq]
  refine and_congr_left' ?_
  cases a.file with
  | none =>
      cases b.file with
      | none => exact iff_of_true rfl rfl
      | some file => exact iff_of_false nofun nofun
  | some file =>
      cases b.file with
      | none => exact iff_of_false nofun nofun
      | some other =>
          rw [Option.map_some, Option.map_some, Option.some.injEq]
          exact beq_iff_eq.symm

/-! ## The scan -/

namespace Scan

variable {wanted : Entry}

theorem run_append (scan : Scan) (front rest : List Entry) : ∀ position,
    run wanted scan position (front ++ rest)
      = run wanted (run wanted scan position front) (position + front.length) rest := by
  induction front generalizing scan with
  | nil => exact fun _ => rfl
  | cons entry front ih =>
      intro position
      rw [List.cons_append, run, run, ih, List.length_cons, Nat.add_right_comm, Nat.add_assoc]

/-- What a step asks of an entry: that it belongs to the place of the new
one. -/
theorem isRelated_iff {entry : Entry} :
    (sameFile entry.file wanted.file && entry.context == wanted.context) = true
      ↔ entry.place = wanted.place := by
  rw [Entry.place_eq_iff, Bool.and_eq_true, beq_iff_eq]

theorem not_joins {scan : Scan} {entry : Entry}
    (hends : entry.place = wanted.place → entry.line < scan.previous) :
    ((sameFile entry.file wanted.file && entry.context == wanted.context)
      && decide (scan.previous ≤ entry.line)) = false := by
  rw [Bool.and_eq_false_imp, isRelated_iff]
  intro hplace
  exact decide_eq_false (Int32.not_le.mpr (hends hplace))

/-- Outside of a run, an entry that does not begin one changes nothing. -/
theorem step_of_idle {scan : Scan} {entry : Entry}
    (hends : entry.place = wanted.place → entry.line < scan.previous)
    (hsize : scan.current.size = 0) (position : Nat) : scan.step wanted position entry = scan := by
  simp only [step, not_joins hends, Bool.false_eq_true, if_false, hsize, Nat.lt_irrefl]

/-- An entry of another place, or one that goes back, ends the run. -/
theorem step_of_ending {scan : Scan} {entry : Entry}
    (hends : entry.place = wanted.place → entry.line < scan.previous)
    (hsize : 0 < scan.current.size) (position : Nat) :
    scan.step wanted position entry
      = { best := if (scan.last position).beats scan.best then scan.last position else scan.best
          current := { scan.last position with
            score := 0, size := if entry.place = wanted.place then 1 else 0 }
          previous := 0 } := by
  have hended : (if scan.current.score = 0 then { scan.current with position, score := 1 }
      else scan.current) = scan.last position := by
    unfold last
    simp only [hsize, true_and]
  simp only [step, not_joins hends, Bool.false_eq_true, if_false, hsize, if_true, hended,
    isRelated_iff]

/-- Outside of a run, an entry of another place changes nothing. -/
theorem step_of_apart {scan : Scan} (hsize : scan.current.size = 0) {entry : Entry}
    (hplace : entry.place ≠ wanted.place) (position : Nat) :
    scan.step wanted position entry = scan :=
  step_of_idle (fun hsame => absurd hsame hplace) hsize position

theorem run_of_apart {scan : Scan} (hsize : scan.current.size = 0) {entries : List Entry}
    (hplaces : ∀ entry ∈ entries, entry.place ≠ wanted.place) : ∀ position,
    run wanted scan position entries = scan := by
  induction entries with
  | nil => exact fun _ => rfl
  | cons entry entries ih =>
      intro position
      rw [run, step_of_apart hsize (hplaces entry List.mem_cons_self)]
      exact ih (fun e he => hplaces e (List.mem_cons_of_mem _ he)) _

/-- What the scan knows in the run of `group`, which begins at `start`. -/
structure IsWithin (wanted : Entry) (start : Nat) (group : List Entry) (scan : Scan) : Prop where
  best : scan.best = {}
  size : scan.current.size = group.length
  reached : ∀ entry ∈ group, entry.line ≤ scan.previous
  previous : scan.previous = 0 ∨ ∃ entry ∈ group, scan.previous = entry.line
  fit : scan.current.score = 0 ∧ (∀ entry ∈ group, entry.line ≤ wanted.line)
    ∨ 0 < scan.current.score ∧ (∃ entry ∈ group, wanted.line < entry.line)
      ∧ scan.current.position = start + group.countP fun entry => entry.line ≤ wanted.line

/-- Whether the new entry fits between the end of the run and the next entry
of the place. -/
def fitsBefore (wanted : Entry) (scan : Scan) (entry : Entry) : Prop :=
  scan.previous ≤ wanted.line ∧ wanted.line < entry.line

/-- An entry of the place that does not go back behind the end of the run
makes the run longer. -/
theorem step_of_member {scan : Scan} {entry : Entry} (hplace : entry.place = wanted.place)
    (hprevious : scan.previous ≤ entry.line) (position : Nat) :
    ∃ score, 0 < score ∧
      (fitsBefore wanted scan entry → scan.step wanted position entry
        = { scan with
            current := { position, score, size := scan.current.size + 1 }
            previous := entry.line })
      ∧ (¬ fitsBefore wanted scan entry → scan.step wanted position entry
        = { scan with
            current := { scan.current with size := scan.current.size + 1 }
            previous := entry.line }) := by
  have hrelated := isRelated_iff.mpr hplace
  refine ⟨if 0 < scan.current.size then 2 else 1, by split <;> decide, ?_, ?_⟩
  · intro hfits
    simp only [step, hrelated, hprevious, decide_true, Bool.and_true, if_true]
    rw [if_pos (show scan.previous ≤ wanted.line ∧ wanted.line < entry.line from hfits)]
  · intro hfits
    simp only [step, hrelated, hprevious, decide_true, Bool.and_true, if_true]
    rw [if_neg (show ¬ (scan.previous ≤ wanted.line ∧ wanted.line < entry.line) from hfits)]

theorem IsWithin.concat {start : Nat} {group : List Entry} {scan : Scan}
    (h : IsWithin wanted start group scan) (hwanted : 0 ≤ wanted.line) {entry : Entry}
    (hplace : entry.place = wanted.place) (hline : 0 ≤ entry.line)
    (hgroup : ∀ e ∈ group, e.line ≤ entry.line) :
    IsWithin wanted start (group ++ [entry]) (scan.step wanted (start + group.length) entry) := by
  have hprevious : scan.previous ≤ entry.line := by
    rcases h.previous with hzero | ⟨e, he, hlast⟩
    · rwa [hzero]
    · rw [hlast]
      exact hgroup e he
  have hreached : ∀ e ∈ group ++ [entry], e.line ≤ entry.line := by
    intro e he
    rcases List.mem_append.mp he with hmem | hmem
    · exact hgroup e hmem
    · rw [List.mem_singleton.mp hmem]
      exact Int32.le_refl _
  have hself : entry ∈ group ++ [entry] := List.mem_append_right _ List.mem_cons_self
  obtain ⟨score, hscore, hhit, hmiss⟩ :=
    step_of_member hplace hprevious (start + group.length)
  by_cases hfits : fitsBefore wanted scan entry
  · -- all lines so far are up to the wanted one, and this one is behind it
    have hlower : ∀ e ∈ group, e.line ≤ wanted.line :=
      fun e he => Int32.le_trans (h.reached e he) hfits.1
    rw [hhit hfits]
    refine ⟨h.best, ?_, hreached, .inr ⟨entry, hself, rfl⟩, .inr ⟨hscore, ⟨entry, hself, hfits.2⟩, ?_⟩⟩
    · rw [List.length_append, List.length_singleton, ← h.size]
    · have hcount : group.countP (fun e => e.line ≤ wanted.line) = group.length :=
        List.countP_eq_length.mpr fun e he => decide_eq_true (hlower e he)
      rw [List.countP_append, hcount, List.countP_singleton,
        decide_eq_false (Int32.not_le.mpr hfits.2)]
      rfl
  · rw [hmiss hfits]
    refine ⟨h.best, ?_, hreached, .inr ⟨entry, hself, rfl⟩, ?_⟩
    · rw [List.length_append, List.length_singleton, ← h.size]
    · rcases h.fit with ⟨hnone, hlower⟩ | ⟨hsome, ⟨e, he, hupper⟩, hposition⟩
      · left
        have hend : scan.previous ≤ wanted.line := by
          rcases h.previous with hzero | ⟨e, he, hlast⟩
          · rwa [hzero]
          · rw [hlast]
            exact hlower e he
        have hentry : entry.line ≤ wanted.line :=
          Int32.not_lt.mp fun hlt => hfits ⟨hend, hlt⟩
        refine ⟨hnone, ?_⟩
        intro e he
        exact Int32.le_trans (hreached e he) hentry
      · right
        have hentry : wanted.line < entry.line := Int32.lt_of_lt_of_le hupper (hgroup e he)
        refine ⟨hsome, ⟨entry, hself, hentry⟩, ?_⟩
        rw [List.countP_append, List.countP_singleton, decide_eq_false (Int32.not_le.mpr hentry)]
        exact hposition

/-- The scan of a run, from its first entry on. -/
theorem isWithin_run (hwanted : 0 ≤ wanted.line) (start : Nat) {group : List Entry}
    (hplaces : ∀ entry ∈ group, entry.place = wanted.place)
    (hlines : ∀ entry ∈ group, 0 ≤ entry.line)
    (hsorted : group.Pairwise fun a b => a.line ≤ b.line) :
    IsWithin wanted start group (run wanted {} start group) := by
  induction group using List.reverseRecOn with
  | nil => exact ⟨rfl, rfl, nofun, .inl rfl, .inl ⟨rfl, nofun⟩⟩
  | append_singleton group entry ih =>
      obtain ⟨hfront, -, hbelow⟩ := List.pairwise_append.mp hsorted
      have hself : entry ∈ group ++ [entry] := List.mem_append_right _ List.mem_cons_self
      rw [run_append]
      refine (ih (fun e he => hplaces e (List.mem_append_left _ he))
        (fun e he => hlines e (List.mem_append_left _ he)) hfront).concat hwanted
          (hplaces entry hself) (hlines entry hself) ?_
      intro e he
      exact hbelow e he entry List.mem_cons_self

theorem beats_of_lt {fit best : Fit} (h : best.score < fit.score) : fit.beats best = true := by
  unfold Fit.beats
  rw [decide_eq_true h, Bool.true_or]

theorem not_beats_of_lt {fit best : Fit} (h : fit.score < best.score) :
    fit.beats best = false := by
  unfold Fit.beats
  rw [decide_eq_false (Nat.lt_asymm h), beq_eq_false_iff_ne.mpr (Nat.ne_of_lt h)]
  rfl

/-- The run that ends at `group` has the new entry stand behind the last
entry whose line is not behind the new one. -/
theorem IsWithin.position_last {start : Nat} {lower upper : List Entry} {scan : Scan}
    (h : IsWithin wanted start (lower ++ upper) scan)
    (hlower : ∀ entry ∈ lower, entry.line ≤ wanted.line)
    (hupper : ∀ entry ∈ upper, wanted.line < entry.line) (hsome : lower ++ upper ≠ []) :
    0 < (scan.last (start + (lower ++ upper).length)).score
      ∧ (scan.last (start + (lower ++ upper).length)).position = start + lower.length := by
  have hsize : 0 < scan.current.size := by
    rw [h.size]
    exact List.length_pos_iff.mpr hsome
  have hcount : (lower ++ upper).countP (fun e => e.line ≤ wanted.line) = lower.length := by
    have hall : lower.countP (fun e => e.line ≤ wanted.line) = lower.length :=
      List.countP_eq_length.mpr fun e he => decide_eq_true (hlower e he)
    have hnone : upper.countP (fun e => e.line ≤ wanted.line) = 0 :=
      List.countP_eq_zero.mpr fun e he => by
        rw [decide_eq_true_eq]
        exact Int32.not_le.mpr (hupper e he)
    rw [List.countP_append, hall, hnone, Nat.add_zero]
  unfold last
  rcases h.fit with ⟨hnone, hall⟩ | ⟨hscore, -, hposition⟩
  · -- the new entry stands behind the whole run
    have hempty : upper = [] := by
      refine List.eq_nil_iff_forall_not_mem.mpr fun e he => ?_
      exact Int32.not_le.mpr (hupper e he) (hall e (List.mem_append_right _ he))
    rw [if_pos ⟨hsize, hnone⟩, hempty, List.append_nil]
    exact ⟨Nat.one_pos, rfl⟩
  · rw [if_neg fun hboth => Nat.ne_of_gt hscore hboth.2]
    exact ⟨hscore, hposition.trans (by rw [hcount])⟩

/-- An entry of another place ends the run, which is then the best one. -/
theorem step_of_end {scan : Scan} (hbest : scan.best = {}) (hsize : 0 < scan.current.size)
    {position : Nat} (hscore : 0 < (scan.last position).score) {entry : Entry}
    (hplace : entry.place ≠ wanted.place) :
    (scan.step wanted position entry).best = scan.last position
      ∧ (scan.step wanted position entry).current.size = 0
      ∧ (scan.step wanted position entry).current.score = 0 := by
  have hbeats : (scan.last position).beats {} = true := beats_of_lt hscore
  rw [step_of_ending (fun hsame => absurd hsame hplace) hsize, hbest, if_pos hbeats, if_neg hplace]
  exact ⟨rfl, rfl, rfl⟩

/-- Around the only run of the place, the new entry stands in that run. -/
theorem position_run (hwanted : 0 ≤ wanted.line) {before lower upper behind : List Entry}
    (hbefore : ∀ entry ∈ before, entry.place ≠ wanted.place)
    (hgroup : ∀ entry ∈ lower ++ upper, entry.place = wanted.place)
    (hbehind : ∀ entry ∈ behind, entry.place ≠ wanted.place)
    (hlines : ∀ entry ∈ lower ++ upper, 0 ≤ entry.line)
    (hsorted : (lower ++ upper).Pairwise fun a b => a.line ≤ b.line)
    (hlower : ∀ entry ∈ lower, entry.line ≤ wanted.line)
    (hupper : ∀ entry ∈ upper, wanted.line < entry.line) (hsome : lower ++ upper ≠ []) :
    (run wanted {} 0 (before ++ (lower ++ upper) ++ behind)).position
        (before ++ (lower ++ upper) ++ behind).length
      = before.length + lower.length := by
  have hwithin := isWithin_run hwanted before.length hgroup hlines hsorted
  have hrun : run wanted {} 0 (before ++ (lower ++ upper) ++ behind)
      = run wanted (run wanted {} before.length (lower ++ upper))
          (before.length + (lower ++ upper).length) behind := by
    rw [List.append_assoc, run_append, run_of_apart rfl hbefore, run_append, Nat.zero_add]
  obtain ⟨hscore, hposition⟩ := hwithin.position_last hlower hupper hsome
  rw [hrun, ← hposition]
  generalize run wanted {} before.length (lower ++ upper) = scan at *
  cases behind with
  | nil =>
      have hbeats : (scan.last (before.length + (lower ++ upper).length)).beats scan.best = true := by
        rw [hwithin.best]
        exact beats_of_lt hscore
      rw [run, List.append_nil, List.length_append, Scan.position, if_pos hbeats]
  | cons entry behind =>
      have hsize : 0 < scan.current.size := by
        rw [hwithin.size]
        exact List.length_pos_iff.mpr hsome
      obtain ⟨hbest, hnone, hunscored⟩ :=
        step_of_end hwithin.best hsize hscore (hbehind entry List.mem_cons_self)
      rw [run, run_of_apart hnone fun e he => hbehind e (List.mem_cons_of_mem _ he)]
      generalize scan.step wanted _ entry = ended at *
      have hlast (length : Nat) : ended.last length = ended.current := by
        unfold last
        rw [hnone]
        rfl
      have hbeaten : ended.current.beats ended.best = false := by
        apply not_beats_of_lt
        rw [hbest, hunscored]
        exact hscore
      rw [Scan.position, hlast, hbeaten, hbest]
      exact if_pos hscore

end Scan

/-! ## The position -/

theorem insertIdx_append_length {α : Type} (a : α) (front rest : List α) :
    (front ++ rest).insertIdx front.length a = front ++ a :: rest := by
  induction front with
  | nil => exact List.insertIdx_zero
  | cons b front ih => exact congrArg (List.cons b) ih

theorem Store.entries_insert (store : Store) (position : Nat) (entry : Entry) :
    (store.insert position entry).entries
      = store.entries.insertIdx (min position store.entries.length) entry := by
  unfold insert
  dsimp only
  split
  · rfl
  · rfl

theorem Store.entries_insertSorted {store : Store} {entry : Entry} {front rest : List Entry}
    (hentries : store.entries = front ++ rest)
    (hposition : sortedPosition (front ++ rest) entry = front.length) :
    (store.insertSorted entry).entries = front ++ entry :: rest := by
  have hinside : min front.length (front ++ rest).length = front.length := by
    rw [List.length_append]
    exact Nat.min_eq_left (Nat.le_add_right _ _)
  rw [insertSorted, entries_insert, hentries, hposition, hinside, insertIdx_append_length]

/-- Without a run of its place, the new entry goes to the end. -/
theorem sortedPosition_of_apart {entries : List Entry} {entry : Entry}
    (h : ∀ e ∈ entries, e.place ≠ entry.place) : sortedPosition entries entry = entries.length := by
  unfold sortedPosition
  split
  · rfl
  · rw [Scan.run_of_apart rfl h]
    rfl

/-- With a single run of its place, the new entry stands in it behind the
last entry whose line is not behind the new one. -/
theorem sortedPosition_of_run {before lower upper behind : List Entry} {entry : Entry}
    (hline : 0 ≤ entry.line) (hbefore : ∀ e ∈ before, e.place ≠ entry.place)
    (hgroup : ∀ e ∈ lower ++ upper, e.place = entry.place)
    (hbehind : ∀ e ∈ behind, e.place ≠ entry.place)
    (hlines : ∀ e ∈ lower ++ upper, 0 ≤ e.line)
    (hsorted : (lower ++ upper).Pairwise fun a b => a.line ≤ b.line)
    (hlower : ∀ e ∈ lower, e.line ≤ entry.line) (hupper : ∀ e ∈ upper, entry.line < e.line)
    (hsome : lower ++ upper ≠ []) :
    sortedPosition ((before ++ lower) ++ (upper ++ behind)) entry = (before ++ lower).length := by
  have hassoc : (before ++ lower) ++ (upper ++ behind) = before ++ (lower ++ upper) ++ behind := by
    simp only [List.append_assoc]
  rw [sortedPosition, if_neg (Int32.not_lt.mpr hline), hassoc, @List.length_append _ before]
  exact Scan.position_run hline hbefore hgroup hbehind hlines hsorted hlower hupper hsome

/-! ## Stable grouping -/

/-- The position at which the first entry of a place arrived. -/
def firstArrival (arrivals : List Entry) (place : Option (List Path.Component) × String) : Nat :=
  (arrivals.map Entry.place).idxOf place

/-- The stored entries are those that arrived, grouped by their places and
sorted by their lines. -/
structure IsStableGrouping (arrivals stored : List Entry) : Prop where
  perm : stored.Perm arrivals
  /-- What stands between two entries of a place belongs to that place. -/
  contiguous : ∀ first between last : Nat, ∀ hlast : last < stored.length,
    ∀ hfirst : first ≤ between, ∀ hbetween : between ≤ last,
      stored[first].place = stored[last].place → stored[between].place = stored[first].place
  /-- Groups stand in the order of their first arrivals. -/
  groups : stored.Pairwise fun a b =>
    firstArrival arrivals a.place ≤ firstArrival arrivals b.place
  /-- Inside of a group the lines do not decrease. -/
  lines : stored.Pairwise fun a b => a.place = b.place → a.line ≤ b.line
  /-- Entries of one place and line stand in the order of their arrival. -/
  stable : ∀ place line,
    stored.filter (fun e => e.place = place ∧ e.line = line)
      = arrivals.filter fun e => e.place = place ∧ e.line = line

section

variable {arrivals : List Entry} {place : Option (List Path.Component) × String}

theorem firstArrival_eq_length (h : place ∉ arrivals.map Entry.place) :
    firstArrival arrivals place = arrivals.length := by
  unfold firstArrival
  rw [List.idxOf_of_notMem h, List.length_map]

/-- One more arrival leaves the earlier ones where they are. -/
theorem firstArrival_append {entry : Entry}
    (h : place ∈ arrivals.map Entry.place ∨ place = entry.place) :
    firstArrival (arrivals ++ [entry]) place = firstArrival arrivals place := by
  by_cases hknown : place ∈ arrivals.map Entry.place
  · unfold firstArrival
    rw [List.map_append, List.idxOf_append_of_mem hknown]
  · obtain rfl := h.resolve_left hknown
    rw [firstArrival_eq_length hknown, firstArrival, List.map_append,
      List.idxOf_append_of_notMem hknown, List.length_map, List.map_singleton,
      List.idxOf_cons_self, Nat.add_zero]

theorem firstArrival_lt (h : place ∈ arrivals.map Entry.place) :
    firstArrival arrivals place < arrivals.length := by
  have hlt := List.idxOf_lt_length_iff.mpr h
  rwa [List.length_map] at hlt

theorem firstArrival_inj {other : Option (List Path.Component) × String}
    (h : place ∈ arrivals.map Entry.place) :
    firstArrival arrivals place = firstArrival arrivals other ↔ place = other :=
  List.idxOf_inj h

end

/-- A list in which `p` never holds again once it failed, cut where it
fails. -/
theorem exists_cut {α : Type} {p : α → Prop} [DecidablePred p] {xs : List α}
    (h : xs.Pairwise fun a b => p b → p a) :
    ∃ front rest, xs = front ++ rest ∧ (∀ a ∈ front, p a) ∧ ∀ b ∈ rest, ¬ p b := by
  induction h with
  | nil => exact ⟨[], [], rfl, nofun, nofun⟩
  | @cons x xs hx _ ih =>
      by_cases hp : p x
      · obtain ⟨front, rest, rfl, hfront, hrest⟩ := ih
        exact ⟨x :: front, rest, rfl, List.forall_mem_cons.mpr ⟨hp, hfront⟩, hrest⟩
      · refine ⟨[], x :: xs, rfl, nofun, List.forall_mem_cons.mpr ⟨hp, ?_⟩⟩
        exact fun b hb hpb => hp (hx b hb hpb)

/-- An element in the middle of a list that is in order. -/
theorem pairwise_insert {α : Type} {R : α → α → Prop} {front rest : List α} {a : α}
    (h : (front ++ rest).Pairwise R) (hfront : ∀ b ∈ front, R b a) (hrest : ∀ b ∈ rest, R a b) :
    (front ++ a :: rest).Pairwise R := by
  obtain ⟨hleft, hright, hacross⟩ := List.pairwise_append.mp h
  refine List.pairwise_append.mpr ⟨hleft, List.pairwise_cons.mpr ⟨hrest, hright⟩, ?_⟩
  intro b hb c hc
  rcases List.mem_cons.mp hc with rfl | hmem
  · exact hfront b hb
  · exact hacross b hb c hmem

/-- An element behind which nothing of its class stands comes last in that
class. -/
theorem filter_insert {α : Type} {p : α → Bool} {front rest : List α} {a : α}
    (h : p a = true → ∀ b ∈ rest, ¬ p b = true) :
    (front ++ a :: rest).filter p = (front ++ rest).filter p ++ [a].filter p := by
  rw [List.filter_append, List.filter_append, List.filter_cons, List.filter_cons]
  cases hp : p a with
  | false => simp
  | true =>
      have hnone : rest.filter p = [] := List.filter_eq_nil_iff.mpr (h hp)
      simp [hnone]

namespace IsStableGrouping

variable {arrivals stored : List Entry}

/-- Groups that stand in the order of their first arrivals are not split,
because no two places arrive first at one position. -/
theorem of_groups (hperm : stored.Perm arrivals)
    (hgroups : stored.Pairwise fun a b =>
      firstArrival arrivals a.place ≤ firstArrival arrivals b.place)
    (hlines : stored.Pairwise fun a b => a.place = b.place → a.line ≤ b.line)
    (hstable : ∀ place line, stored.filter (fun e => e.place = place ∧ e.line = line)
      = arrivals.filter fun e => e.place = place ∧ e.line = line) :
    IsStableGrouping arrivals stored where
  perm := hperm
  groups := hgroups
  lines := hlines
  stable := hstable
  contiguous := by
    intro first between last hlast hfirst hbetween hsame
    have hle : ∀ i j : Nat, ∀ hj : j < stored.length, ∀ hij : i ≤ j,
        firstArrival arrivals stored[i].place ≤ firstArrival arrivals stored[j].place := by
      intro i j hj hij
      rcases Nat.eq_or_lt_of_le hij with rfl | hlt
      · exact Nat.le_refl _
      · exact List.pairwise_iff_getElem.mp hgroups i j (Nat.lt_trans hlt hj) hj hlt
    have hknown : stored[between].place ∈ arrivals.map Entry.place :=
      List.mem_map_of_mem (hperm.mem_iff.mp (List.getElem_mem _))
    refine (firstArrival_inj hknown).mp (Nat.le_antisymm ?_ ?_)
    · rw [hsame]
      exact hle between last hlast hbetween
    · exact hle first between (Nat.lt_of_le_of_lt hbetween hlast) hfirst

theorem mem_places (h : IsStableGrouping arrivals stored) {entry : Entry} (hentry : entry ∈ stored) :
    entry.place ∈ arrivals.map Entry.place :=
  List.mem_map_of_mem (h.perm.mem_iff.mp hentry)

/-- The group of a place, between those whose places arrived earlier and
those whose places arrived later. -/
theorem exists_group (h : IsStableGrouping arrivals stored)
    {place : Option (List Path.Component) × String} (hplace : place ∈ arrivals.map Entry.place) :
    ∃ before group behind, stored = before ++ (group ++ behind) ∧ group ≠ []
      ∧ (∀ e ∈ before, firstArrival arrivals e.place < firstArrival arrivals place)
      ∧ (∀ e ∈ group, e.place = place)
      ∧ ∀ e ∈ behind, firstArrival arrivals place < firstArrival arrivals e.place := by
  obtain ⟨before, tail, hstored, hbefore, htail⟩ :=
    exists_cut (p := fun e : Entry => firstArrival arrivals e.place < firstArrival arrivals place)
      (h.groups.imp fun hle hlt => Nat.lt_of_le_of_lt hle hlt)
  have hgroups := h.groups
  rw [hstored, List.pairwise_append] at hgroups
  obtain ⟨group, behind, rfl, hgroup, hbehind⟩ :=
    exists_cut (p := fun e : Entry => firstArrival arrivals e.place ≤ firstArrival arrivals place)
      (hgroups.2.1.imp fun hle hup => Nat.le_trans hle hup)
  have hsame : ∀ e ∈ group, e.place = place := by
    intro e he
    have hmem := List.mem_append_left behind he
    have hstoredMem : e ∈ stored := hstored ▸ List.mem_append_right before hmem
    exact (firstArrival_inj (h.mem_places hstoredMem)).mp
      (Nat.le_antisymm (hgroup e he) (Nat.le_of_not_lt (htail e hmem)))
  refine ⟨before, group, behind, hstored, ?_, hbefore, hsame,
    fun e he => Nat.lt_of_not_le (hbehind e he)⟩
  rintro rfl
  obtain ⟨e, he, rfl⟩ := List.mem_map.mp hplace
  have hstoredMem := h.perm.mem_iff.mpr he
  rw [hstored, List.mem_append] at hstoredMem
  rcases hstoredMem with hmem | hmem
  · exact Nat.lt_irrefl _ (hbefore e hmem)
  · exact hbehind e hmem (Nat.le_refl _)

/-- The new entry is put where the entries of its group that are not behind
it end, or to the end, if it begins a group. -/
theorem exists_position (h : IsStableGrouping arrivals stored)
    (hlines : ∀ e ∈ arrivals, 0 ≤ e.line) {entry : Entry} (hline : 0 ≤ entry.line) :
    ∃ front rest, stored = front ++ rest
      ∧ sortedPosition (front ++ rest) entry = front.length
      ∧ (∀ a ∈ front, firstArrival arrivals a.place ≤ firstArrival arrivals entry.place
        ∧ (a.place = entry.place → a.line ≤ entry.line))
      ∧ ∀ b ∈ rest, firstArrival arrivals entry.place ≤ firstArrival arrivals b.place
        ∧ (b.place = entry.place → entry.line < b.line) := by
  have hapart {e : Entry} (hne : firstArrival arrivals e.place ≠ firstArrival arrivals entry.place) :
      e.place ≠ entry.place := fun hsame => hne (congrArg (firstArrival arrivals) hsame)
  by_cases hknown : entry.place ∈ arrivals.map Entry.place
  · obtain ⟨before, group, behind, hstored, hsome, hbefore, hgroup, hbehind⟩ :=
      h.exists_group hknown
    have hstart : ∀ e ∈ group, 0 ≤ e.line := by
      intro e he
      apply hlines e (h.perm.mem_iff.mp _)
      rw [hstored]
      exact List.mem_append_right _ (List.mem_append_left _ he)
    have hpairs := h.lines
    rw [hstored, List.pairwise_append, List.pairwise_append] at hpairs
    have hsorted : group.Pairwise fun a b => a.line ≤ b.line :=
      hpairs.2.1.1.imp_of_mem fun ha hb hle => hle ((hgroup _ ha).trans (hgroup _ hb).symm)
    obtain ⟨lower, upper, rfl, hlower, hupper⟩ :=
      exists_cut (p := fun e : Entry => e.line ≤ entry.line)
        (hsorted.imp fun hle hup => Int32.le_trans hle hup)
    refine ⟨before ++ lower, upper ++ behind, ?_, ?_, ?_, ?_⟩
    · rw [hstored]
      simp only [List.append_assoc]
    · exact sortedPosition_of_run hline (fun e he => hapart (Nat.ne_of_lt (hbefore e he))) hgroup
        (fun e he => hapart (Nat.ne_of_gt (hbehind e he))) hstart hsorted hlower
        (fun e he => Int32.not_le.mp (hupper e he)) hsome
    · intro a ha
      rcases List.mem_append.mp ha with hside | hside
      · have hlt := hbefore a hside
        exact ⟨Nat.le_of_lt hlt, fun hsame => absurd hsame (hapart (Nat.ne_of_lt hlt))⟩
      · rw [hgroup a (List.mem_append_left _ hside)]
        exact ⟨Nat.le_refl _, fun _ => hlower a hside⟩
    · intro b hb
      rcases List.mem_append.mp hb with hside | hside
      · rw [hgroup b (List.mem_append_right _ hside)]
        exact ⟨Nat.le_refl _, fun _ => Int32.not_le.mp (hupper b hside)⟩
      · have hlt := hbehind b hside
        exact ⟨Nat.le_of_lt hlt, fun hsame => absurd hsame (hapart (Nat.ne_of_gt hlt))⟩
  · -- the first entry of its place stands behind all others
    have hbelow : ∀ a ∈ stored, firstArrival arrivals a.place
        < firstArrival arrivals entry.place := by
      intro a ha
      rw [firstArrival_eq_length hknown]
      exact firstArrival_lt (h.mem_places ha)
    have hother : ∀ a ∈ stored, a.place ≠ entry.place :=
      fun a ha => hapart (Nat.ne_of_lt (hbelow a ha))
    refine ⟨stored, [], (List.append_nil _).symm, ?_, ?_, nofun⟩
    · rw [List.append_nil]
      exact sortedPosition_of_apart hother
    · intro a ha
      exact ⟨Nat.le_of_lt (hbelow a ha), fun hsame => absurd hsame (hother a ha)⟩

/-- A step keeps the grouping, with one more entry that arrived. -/
theorem concat {store : Store} (h : IsStableGrouping arrivals store.entries)
    (hlines : ∀ e ∈ arrivals, 0 ≤ e.line) {entry : Entry} (hline : 0 ≤ entry.line) :
    IsStableGrouping (arrivals ++ [entry]) (store.insertSorted entry).entries := by
  obtain ⟨front, rest, hstored, hposition, hfront, hrest⟩ := h.exists_position hlines hline
  rw [Store.entries_insertSorted hstored hposition]
  rw [hstored] at h
  have hrank {e : Entry} (he : e ∈ front ++ rest) :
      firstArrival (arrivals ++ [entry]) e.place = firstArrival arrivals e.place :=
    firstArrival_append (.inl (h.mem_places he))
  have hself : firstArrival (arrivals ++ [entry]) entry.place = firstArrival arrivals entry.place :=
    firstArrival_append (.inr rfl)
  refine of_groups ?_ (pairwise_insert ?_ ?_ ?_) ?_ ?_
  · calc (front ++ entry :: rest).Perm (entry :: (front ++ rest)) := List.perm_middle
      _ |>.Perm (entry :: arrivals) := h.perm.cons entry
      _ |>.Perm (arrivals ++ [entry]) := (List.perm_append_singleton entry arrivals).symm
  · refine h.groups.imp_of_mem fun ha hb hle => ?_
    rwa [hrank ha, hrank hb]
  · intro a ha
    rw [hrank (List.mem_append_left _ ha), hself]
    exact (hfront a ha).1
  · intro b hb
    rw [hrank (List.mem_append_right _ hb), hself]
    exact (hrest b hb).1
  · exact pairwise_insert h.lines (fun a ha => (hfront a ha).2)
      fun b hb hsame => Int32.le_of_lt ((hrest b hb).2 hsame.symm)
  · intro place line
    rw [filter_insert, h.stable, List.filter_append]
    intro hentry b hb hother
    rw [decide_eq_true_eq] at hentry hother
    have hbehind := (hrest b hb).2 (hother.1.trans hentry.1.symm)
    rw [hentry.2, hother.2] at hbehind
    exact Int32.lt_irrefl hbehind

end IsStableGrouping

/-- Entries with a line that are put in one by one, from no entries on, are
grouped by their places and sorted by their lines. -/
theorem Store.isStableGrouping_insertSorted {arrivals : List Entry}
    (hlines : ∀ entry ∈ arrivals, 0 ≤ entry.line) {store : Store} (hstore : store.entries = []) :
    IsStableGrouping arrivals (arrivals.foldl Store.insertSorted store).entries := by
  induction arrivals using List.reverseRecOn with
  | nil =>
      rw [List.foldl_nil, hstore]
      exact .of_groups (.refl _) .nil .nil fun _ _ => rfl
  | append_singleton arrivals entry ih =>
      rw [List.foldl_append]
      refine (ih fun e he => hlines e (List.mem_append_left _ he)).concat
        (fun e he => hlines e (List.mem_append_left _ he)) (hlines entry ?_)
      exact List.mem_append_right _ List.mem_cons_self

/-- Two files, of which one is written in two ways, and two contexts. -/
def interleaved : List Entry :=
  [{ context := "C", source := "1", file := some ⟨"src/a.cpp"⟩, line := 20 },
    { context := "C", source := "2", file := some ⟨"src/b.cpp"⟩, line := 5 },
    { context := "C", source := "3", file := some ⟨"src//a.cpp"⟩, line := 10 },
    { context := "D", source := "4", file := some ⟨"src/a.cpp"⟩, line := 15 },
    { context := "C", source := "5", file := some ⟨"src/a.cpp"⟩, line := 20 },
    { context := "C", source := "6", file := some ⟨"src/b.cpp"⟩, line := 0 },
    { context := "C", source := "7", file := some ⟨"src/a.cpp/."⟩, line := 15 }]

theorem Store.isStableGrouping_interleaved :
    (∀ entry ∈ interleaved, 0 ≤ entry.line)
      ∧ (interleaved.foldl Store.insertSorted {}).entries.map Entry.source
        = ["3", "7", "1", "5", "6", "2", "4"]
      ∧ IsStableGrouping interleaved (interleaved.foldl Store.insertSorted {}).entries := by
  have hlines : ∀ entry ∈ interleaved, 0 ≤ entry.line := by decide
  exact ⟨hlines, by decide, Store.isStableGrouping_insertSorted hlines rfl⟩

end MessageCatalog
