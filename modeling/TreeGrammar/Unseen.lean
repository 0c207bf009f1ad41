/-!
# What has not been seen

A walk that never enters a name twice ends, because with every name it enters there are fewer left.

* `unseen all seen`: the names among `all` that are not among `seen`.
* `length_unseen_cons`: entering a name for the first time leaves fewer.
-/

namespace TreeGrammar

/-- The names among `all` that have not been seen. -/
def unseen (all seen : List String) : List String :=
  all.filter (!seen.contains ·)

/-- The names not seen are the others among all. -/
theorem mem_unseen {all seen : List String} {name : String} :
    name ∈ unseen all seen ↔ name ∈ all ∧ name ∉ seen := by
  simp [unseen]

/-- One more name seen leaves no more names not seen, and in their order. -/
theorem unseen_cons_sublist (all seen : List String) (name : String) :
    (unseen all (name :: seen)).Sublist (unseen all seen) := by
  have h : unseen all (name :: seen) = (unseen all seen).filter (fun x => !(x == name)) := by
    simp only [unseen, List.filter_filter]
    congr 1
    funext x
    by_cases hx : x = name <;> simp [hx]
  rw [h]
  exact List.filter_sublist

/-- One more name seen leaves no more names not seen. -/
theorem length_unseen_cons_le (all seen : List String) (name : String) :
    (unseen all (name :: seen)).length ≤ (unseen all seen).length :=
  (unseen_cons_sublist all seen name).length_le

/-- A name that is seen for the first time is no longer among those left. -/
theorem length_unseen_cons {all seen : List String} {name : String} (member : name ∈ all)
    (new : name ∉ seen) : (unseen all (name :: seen)).length < (unseen all seen).length := by
  refine Nat.lt_of_le_of_ne (length_unseen_cons_le all seen name) fun h => ?_
  have e := (unseen_cons_sublist all seen name).eq_of_length h
  have h' : name ∈ unseen all (name :: seen) := e ▸ mem_unseen.2 ⟨member, new⟩
  simp [unseen] at h'

end TreeGrammar
