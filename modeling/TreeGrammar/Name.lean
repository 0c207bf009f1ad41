/-!
# Names and tags

A reference in a grammar is a text. A text that begins with `v_` is a value tag and stands for
itself; any other non-empty text is a name, which a definition has to bind.

* `isTag`: whether a text is a value tag.
* `IsDefinable`: what the name of a definition has to be.
* `mem_of_lookup`, `exists_lookup_of_mem`: what is found by name among entries in order.
-/

namespace TreeGrammar

/-- The two characters that a value tag begins with. -/
def tagMark : String := "v_"

/-- Whether a text is a value tag. -/
def isTag (s : String) : Bool :=
  match s.toList with
  | 'v' :: '_' :: _ => true
  | _ => false

/-- A text is a tag exactly if its characters begin with the two of the mark. -/
theorem isTag_iff {s : String} : isTag s = true ↔ ∃ cs, s.toList = 'v' :: '_' :: cs := by
  unfold isTag
  split
  · next h => exact ⟨fun _ => ⟨_, h⟩, fun _ => rfl⟩
  · next h => exact ⟨nofun, fun ⟨cs, e⟩ => absurd e (h cs)⟩

/-- The tag that ends every list. -/
def emptyList : String := "v__empty_list"

/-- The end of a list is a tag, so nothing has to bind it. -/
theorem isTag_emptyList : isTag emptyList = true := by decide

/-- A definition binds a non-empty text that is no value tag. -/
def IsDefinable (name : String) : Prop :=
  name ≠ "" ∧ isTag name = false

instance (name : String) : Decidable (IsDefinable name) :=
  inferInstanceAs (Decidable (_ ∧ _))

/-! ### Entries by name -/

variable {α : Type} {entries : List (String × α)} {name : String}

/-- What is found by a name is an entry under it. -/
theorem mem_of_lookup {entry : α} (found : entries.lookup name = some entry) :
    (name, entry) ∈ entries := by
  obtain ⟨before, after, rfl, -⟩ := List.lookup_eq_some_iff.1 found
  exact List.mem_append_right _ List.mem_cons_self

/-- A name with an entry is found. -/
theorem exists_lookup_of_mem (h : name ∈ entries.map (·.1)) :
    ∃ entry, entries.lookup name = some entry := by
  rcases found : entries.lookup name with _ | entry
  · rw [List.lookup_eq_none_iff] at found
    obtain ⟨p, member, rfl⟩ := List.mem_map.1 h
    simpa using found p member
  · exact ⟨entry, rfl⟩

end TreeGrammar
