/-
# `MessageCatalog.Proofs.Bracketing` — the neighbours of an entry that is put in by its line

The scan for the place of a new entry looks at pairs: the line that the
current run has reached, and the line of the next entry.

    previous ≤ wanted < next        the new entry may stand here

As long as `previous` is the line of the entry in front, a new entry that is
put between two entries of its place is bracketed by their lines.  It is not
so at one point.  Where a run begins with an entry that goes back behind the
one before it, `previous` is zero and not the line of that entry, and any
line up to the next one is taken to fit (`GoesBack`).  In `descending` the
new entry is put behind an entry with a greater line.

What the scan knows after some entries is one structure (`IsBracketing`),
and a step keeps it.
-/
import MessageCatalog.Proofs.SortedInsertion

namespace MessageCatalog

namespace Scan

variable {wanted : Entry}

/-! ## Neighbours -/

/-- The entry goes back behind the one in front of it, which belongs to the
place of the new entry as well. -/
def GoesBack (wanted : Entry) (front : List Entry) (entry : Entry) : Prop :=
  ∃ earlier before, front = earlier ++ [before] ∧ before.place = wanted.place
    ∧ entry.line < before.line

/-- Between the entries that were read and the next one the new entry is
bracketed, if both its neighbours belong to its place and are in order. -/
def FitsBetween (wanted : Entry) (read : List Entry) (next : Entry) : Prop :=
  ∀ front last, read = front ++ [last] → last.place = wanted.place → next.place = wanted.place →
    0 ≤ last.line → last.line ≤ next.line →
      wanted.line < next.line ∧ (last.line ≤ wanted.line ∨ GoesBack wanted front last)

/-- At the position the new entry is bracketed. -/
def FitsAt (wanted : Entry) (entries : List Entry) (position : Nat) : Prop :=
  ∃ read next rest, entries = read ++ next :: rest ∧ read.length = position
    ∧ FitsBetween wanted read next

theorem FitsAt.append {entries : List Entry} {position : Nat} (h : FitsAt wanted entries position)
    (more : List Entry) : FitsAt wanted (entries ++ more) position := by
  obtain ⟨read, next, rest, rfl, hposition, hfits⟩ := h
  exact ⟨read, next, rest ++ more, List.append_assoc _ _ _, hposition, hfits⟩

theorem fitsAt_concat {read : List Entry} {next : Entry} (h : FitsBetween wanted read next) :
    FitsAt wanted (read ++ [next]) read.length :=
  ⟨read, next, [], rfl, rfl, h⟩

/-! ## Runs -/

/-- What is known after some entries. -/
structure IsBracketing (wanted : Entry) (read : List Entry) (scan : Scan) : Prop where
  outside : scan.current.size = 0 → scan.previous = 0
  inside : 0 < scan.current.size → ∃ front last, read = front ++ [last]
    ∧ last.place = wanted.place ∧ (scan.previous = last.line ∨ scan.previous = 0)
  /-- The line that was reached is that of the last entry, or this one went
  back. -/
  reached : ∀ front last, read = front ++ [last] → last.place = wanted.place → 0 ≤ last.line →
    scan.previous = last.line ∨ scan.previous = 0 ∧ GoesBack wanted front last
  current : 0 < scan.current.score → FitsAt wanted read scan.current.position
  best : 0 < scan.best.score → FitsAt wanted read scan.best.position

namespace IsBracketing

variable {read : List Entry} {scan : Scan}

theorem nil : IsBracketing wanted [] {} where
  outside _ := rfl
  inside h := absurd h (Nat.lt_irrefl 0)
  reached front _ h := by simp at h
  current h := absurd h (Nat.lt_irrefl 0)
  best h := absurd h (Nat.lt_irrefl 0)

/-- The pair that a run is longer by is a right one. -/
theorem fitsBetween_of_fitsBefore (h : IsBracketing wanted read scan) {entry : Entry}
    (hfits : fitsBefore wanted scan entry) : FitsBetween wanted read entry := by
  intro front last hread hlast _ hline _
  refine ⟨hfits.2, ?_⟩
  rcases h.reached front last hread hlast hline with hprevious | ⟨-, hback⟩
  · left
    rw [← hprevious]
    exact hfits.1
  · exact .inr hback

/-- Behind a run there is no entry of the place with a line to follow. -/
theorem fitsBetween_of_ending (h : IsBracketing wanted read scan) {entry : Entry}
    (hends : entry.place = wanted.place → entry.line < scan.previous) :
    FitsBetween wanted read entry := by
  intro front last hread hlast hentry hline hle
  refine absurd hle (Int32.not_le.mpr ?_)
  rcases h.reached front last hread hlast hline with hprevious | ⟨hprevious, -⟩
  · rw [← hprevious]
    exact hends hentry
  · refine Int32.lt_of_lt_of_le (hends hentry) ?_
    rwa [hprevious]

theorem fitsAt_last (h : IsBracketing wanted read scan) {entry : Entry}
    (hends : entry.place = wanted.place → entry.line < scan.previous)
    (hscore : 0 < (scan.last read.length).score) :
    FitsAt wanted (read ++ [entry]) (scan.last read.length).position := by
  unfold last at hscore ⊢
  split
  · exact fitsAt_concat (h.fitsBetween_of_ending hends)
  · next hknown =>
    rw [if_neg hknown] at hscore
    exact (h.current hscore).append _

theorem concat_joining (h : IsBracketing wanted read scan) {entry : Entry}
    (hplace : entry.place = wanted.place) (hprevious : scan.previous ≤ entry.line) :
    IsBracketing wanted (read ++ [entry]) (scan.step wanted read.length entry) := by
  obtain ⟨score, hscore, hhit, hmiss⟩ := step_of_member hplace hprevious read.length
  have hreached : ∀ front last, read ++ [entry] = front ++ [last] → last.place = wanted.place →
      0 ≤ last.line → entry.line = last.line ∨ entry.line = 0 ∧ GoesBack wanted front last := by
    intro front last hread _ _
    exact .inl (congrArg Entry.line (List.singleton_inj.mp (List.append_inj' hread rfl).2))
  by_cases hfits : fitsBefore wanted scan entry
  · rw [hhit hfits]
    exact ⟨nofun, fun _ => ⟨read, entry, rfl, hplace, .inl rfl⟩, hreached,
      fun _ => fitsAt_concat (h.fitsBetween_of_fitsBefore hfits), fun hbest => (h.best hbest).append _⟩
  · rw [hmiss hfits]
    exact ⟨nofun, fun _ => ⟨read, entry, rfl, hplace, .inl rfl⟩, hreached,
      fun hcurrent => (h.current hcurrent).append _, fun hbest => (h.best hbest).append _⟩

theorem concat_ending (h : IsBracketing wanted read scan) {entry : Entry}
    (hends : entry.place = wanted.place → entry.line < scan.previous)
    (hsize : 0 < scan.current.size) :
    IsBracketing wanted (read ++ [entry]) (scan.step wanted read.length entry) := by
  obtain ⟨front, last, hread, hlast, hprevious⟩ := h.inside hsize
  rw [step_of_ending hends hsize]
  refine ⟨fun _ => rfl, ?_, ?_, nofun, ?_⟩
  · intro hsome
    dsimp only at hsome
    split at hsome
    · next hplace => exact ⟨read, entry, rfl, hplace, .inr rfl⟩
    · exact absurd hsome (Nat.lt_irrefl 0)
  · intro front' last' hread' hlast' hline
    obtain ⟨rfl, hsame⟩ := List.append_inj' hread' rfl
    cases hsame
    have hlt := hends hlast'
    rcases hprevious with hprevious | hprevious
    · exact .inr ⟨rfl, front, last, hread, hlast, hprevious ▸ hlt⟩
    · rw [hprevious] at hlt
      exact absurd hline (Int32.not_le.mpr hlt)
  · intro hbest
    dsimp only at hbest ⊢
    split
    · next hbeats =>
      rw [if_pos hbeats] at hbest
      exact h.fitsAt_last hends hbest
    · next hbeats =>
      rw [if_neg hbeats] at hbest
      exact (h.best hbest).append _

theorem concat_idle (h : IsBracketing wanted read scan) {entry : Entry}
    (hends : entry.place = wanted.place → entry.line < scan.previous)
    (hsize : scan.current.size = 0) :
    IsBracketing wanted (read ++ [entry]) (scan.step wanted read.length entry) := by
  rw [step_of_idle hends hsize]
  refine ⟨h.outside, fun hsome => absurd hsize (Nat.ne_of_gt hsome), ?_,
    fun hcurrent => (h.current hcurrent).append _, fun hbest => (h.best hbest).append _⟩
  intro front last hread hlast hline
  obtain ⟨rfl, hsame⟩ := List.append_inj' hread rfl
  cases hsame
  have hlt := hends hlast
  rw [h.outside hsize] at hlt
  exact absurd hline (Int32.not_le.mpr hlt)

/-- A step keeps what is known. -/
theorem concat (h : IsBracketing wanted read scan) (entry : Entry) :
    IsBracketing wanted (read ++ [entry]) (scan.step wanted read.length entry) := by
  by_cases hends : entry.place = wanted.place → entry.line < scan.previous
  · rcases Nat.eq_zero_or_pos scan.current.size with hsize | hsize
    · exact h.concat_idle hends hsize
    · exact h.concat_ending hends hsize
  · obtain ⟨hplace, hnot⟩ := Classical.not_imp.mp hends
    exact h.concat_joining hplace (Int32.not_lt.mp hnot)

/-- The scan puts the new entry behind all others, or where it is bracketed. -/
theorem position (h : IsBracketing wanted read scan) :
    scan.position read.length = read.length
      ∨ FitsAt wanted read (scan.position read.length) := by
  unfold Scan.position
  dsimp only
  split
  · next hbeats =>
    unfold last at hbeats ⊢
    split
    · exact .inl rfl
    · next hknown =>
      rw [if_neg hknown] at hbeats
      refine .inr (h.current (Nat.pos_of_ne_zero fun hnone => ?_))
      -- without a score the run has no entries, and it beats none
      have hempty : scan.current.size = 0 :=
        Nat.eq_zero_of_not_pos fun hsome => hknown ⟨hsome, hnone⟩
      rw [Fit.beats, hnone, hempty, decide_eq_false (Nat.not_lt_zero _),
        decide_eq_false (Nat.not_lt_zero _), Bool.and_false, Bool.or_false] at hbeats
      exact Bool.false_ne_true hbeats
  · split
    · next hbest => exact .inr (h.best hbest)
    · exact .inl rfl

end IsBracketing

theorem isBracketing_run (wanted : Entry) (entries : List Entry) :
    IsBracketing wanted entries (run wanted {} 0 entries) := by
  induction entries using List.reverseRecOn with
  | nil => exact .nil
  | append_singleton read entry ih =>
      rw [run_append, Nat.zero_add]
      exact ih.concat entry

end Scan

/-! ## Stores -/

/-- An entry that is put between two entries of its place, which are in
order, is in front of the second one, and behind the first one unless that
goes back behind an entry of the place in front of it. -/
theorem Store.insertSorted_between {store : Store} {entry : Entry} (hentry : 0 ≤ entry.line)
    {front behind : List Entry} {a b : Entry} (hentries : store.entries = front ++ a :: b :: behind)
    (hposition : sortedPosition store.entries entry = front.length + 1)
    (ha : a.place = entry.place) (hb : b.place = entry.place) (hline : 0 ≤ a.line)
    (hle : a.line ≤ b.line) :
    (store.insertSorted entry).entries = front ++ a :: entry :: b :: behind
      ∧ entry.line < b.line
      ∧ (a.line ≤ entry.line
        ∨ ∃ earlier before, front = earlier ++ [before] ∧ before.place = entry.place
          ∧ a.line < before.line) := by
  have hsplit : store.entries = (front ++ [a]) ++ b :: behind := by
    rw [hentries, List.append_assoc, List.singleton_append]
  have hlength : (front ++ [a]).length = front.length + 1 := List.length_append
  refine ⟨?_, ?_⟩
  · have hinserted := Store.entries_insertSorted hsplit
      (by rw [← hsplit, hposition, hlength])
    rw [hinserted, List.append_assoc, List.singleton_append]
  · have hscan : (Scan.run entry {} 0 store.entries).position store.entries.length
        = front.length + 1 := by
      rw [← hposition, sortedPosition, if_neg (Int32.not_lt.mpr hentry)]
    rcases (Scan.isBracketing_run entry store.entries).position with hend | hfits
    · -- the end is not between two entries
      rw [hscan, hentries, List.length_append, List.length_cons, List.length_cons] at hend
      omega
    · rw [hscan] at hfits
      obtain ⟨read, next, rest, hread, hreadLength, hfits⟩ := hfits
      obtain ⟨rfl, hrest⟩ := List.append_inj (hsplit.symm.trans hread) (hlength.trans hreadLength.symm)
      cases hrest
      exact hfits front a rfl ha hb hline hle

/-- An entry of a file. -/
def writtenAt (line : Int32) : Entry := { context := "C", file := some ⟨"a.cpp"⟩, line }

/-- An entry of another file, and a run. -/
def ascending : List Entry :=
  [{ context := "C", file := some ⟨"b.cpp"⟩, line := 40 }, writtenAt 10, writtenAt 20, writtenAt 30]

theorem Store.insertSorted_between_ascending :
    sortedPosition ascending (writtenAt 20) = 3
      ∧ ((Store.ofCatalog { entries := ascending }).insertSorted (writtenAt 20)).entries
        = ascending.take 2 ++ writtenAt 20 :: writtenAt 20 :: writtenAt 30 :: []
      ∧ (writtenAt 20).line < (writtenAt 30).line := by
  have hposition : sortedPosition ascending (writtenAt 20) = 3 := by decide
  have hsplit : (Store.ofCatalog { entries := ascending }).entries
      = ascending.take 2 ++ writtenAt 20 :: writtenAt 30 :: [] := rfl
  obtain ⟨hentries, hbehind, -⟩ :=
    Store.insertSorted_between (by decide) hsplit hposition rfl rfl (by decide) (by decide)
  exact ⟨hposition, hentries, hbehind⟩

/-- A run that begins with an entry that goes back. -/
def descending : List Entry := [writtenAt 10, writtenAt 5, writtenAt 20]

/-- A line in front of both neighbours. -/
theorem Store.insertSorted_descending :
    sortedPosition descending (writtenAt 3) = 2
      ∧ (writtenAt 5).place = (writtenAt 3).place ∧ (writtenAt 20).place = (writtenAt 3).place
      ∧ 0 ≤ (writtenAt 3).line ∧ 0 ≤ (writtenAt 5).line
      ∧ (writtenAt 5).line ≤ (writtenAt 20).line
      ∧ ((Store.ofCatalog { entries := descending }).insertSorted (writtenAt 3)).entries
        = [writtenAt 10, writtenAt 5, writtenAt 3, writtenAt 20]
      ∧ ¬ (writtenAt 5).line ≤ (writtenAt 3).line := by
  decide

end MessageCatalog
