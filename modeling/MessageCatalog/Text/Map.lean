/-
# `MessageCatalog.Text.Map` — finite maps from texts to texts

Catalogs and entries carry named extension values.  A map lists its keys in
ascending order, which is the order of their UTF-8 bytes, so two maps with
the same values are equal.
-/

namespace MessageCatalog

/-- Named values, in ascending order of their names. -/
structure TextMap where
  entries : List (String × String) := []
  ascending : entries.Pairwise (fun a b => a.1 < b.1) := by exact .nil
deriving DecidableEq

namespace TextMap

instance : Inhabited TextMap := ⟨{}⟩

/-- The map without values. -/
def empty : TextMap := {}

/-- Puts a value into a list of entries, in place of the one it had. -/
def place (key value : String) : List (String × String) → List (String × String)
  | [] => [(key, value)]
  | (k, v) :: rest =>
    if key < k then (key, value) :: (k, v) :: rest
    else if k = key then (key, value) :: rest
    else (k, v) :: place key value rest

theorem key_of_mem_place {key value : String} {entries : List (String × String)}
    {e : String × String} (h : e ∈ place key value entries) : e.1 = key ∨ e ∈ entries := by
  induction entries with
  | nil => simp_all [place]
  | cons head rest ih =>
    simp only [place] at h
    split at h
    · simp only [List.mem_cons] at h ⊢
      rcases h with rfl | h | h
      · exact .inl rfl
      · exact .inr (.inl h)
      · exact .inr (.inr h)
    · split at h
      · simp only [List.mem_cons] at h ⊢
        rcases h with rfl | h
        · exact .inl rfl
        · exact .inr (.inr h)
      · simp only [List.mem_cons] at h ⊢
        rcases h with h | h
        · exact .inr (.inl h)
        · exact (ih h).imp id .inr

theorem ascending_place {key value : String} {entries : List (String × String)}
    (h : entries.Pairwise (fun a b => a.1 < b.1)) :
    (place key value entries).Pairwise (fun a b => a.1 < b.1) := by
  induction entries with
  | nil => simp [place]
  | cons head rest ih =>
    rw [List.pairwise_cons] at h
    simp only [place]
    split
    · next hlt =>
      rw [List.pairwise_cons, List.pairwise_cons]
      refine ⟨fun e he => ?_, h⟩
      rcases List.mem_cons.mp he with rfl | he
      · exact hlt
      · exact String.lt_trans hlt (h.1 e he)
    · next hge =>
      split
      · next heq =>
        rw [List.pairwise_cons]
        exact ⟨fun e he => heq ▸ h.1 e he, h.2⟩
      · next hne =>
        rw [List.pairwise_cons]
        refine ⟨fun e he => ?_, ih h.2⟩
        rcases key_of_mem_place he with hk | he
        · rw [hk]
          exact Classical.byContradiction fun hnot => hne
            (String.le_antisymm (String.not_lt.mp hge) (String.not_lt.mp hnot))
        · exact h.1 e he

/-- Gives a name a value, in place of the one it had. -/
def insert (map : TextMap) (key value : String) : TextMap :=
  { entries := place key value map.entries
    ascending := ascending_place map.ascending }

/-- The value of a name. -/
def get? (map : TextMap) (key : String) : Option String := map.entries.lookup key

/-- The map of a list of values; the last one of a name counts. -/
def ofList (entries : List (String × String)) : TextMap :=
  entries.foldl (fun map (key, value) => map.insert key value) {}

/-- There are no values. -/
def isEmpty (map : TextMap) : Bool := map.entries.isEmpty

end TextMap

end MessageCatalog
