import Mathlib
import TreeGrammar.Proofs.Bindings.Naming

/-!
# The order in which names are handed out

The queue of types grows behind while it is taken from in front, so the types that are met stand in
the order of the definitions, then of what is nested in these, then of what is nested in that. Names
are handed out in this order, and within one type from left to right, each of them with the least
number whose name is not in use.

* `LeastUnused`: names with the least numbers, one after the other.
* `extract_leastUnused`: the names in the log are such names.
* `Nested.pending`, `Nested.places`: the types that are met, and the items that get names.
* `extract_places`: the log has one entry for every such item, in the same order.
* `extract_length_le`: no more types are met than the queue holds.
-/

namespace TreeGrammar

/-! ### The least number -/

/-- Each name is the stem with the least number whose name is not in use, and is in use from then
on. -/
inductive LeastUnused (stem : String) : List String → List String → Prop
  | nil (used : List String) : LeastUnused stem used []
  | cons {used names : List String} {k : Nat} (least : IsLeast {k | stem ++ toString k ∉ used} k)
      (later : LeastUnused stem ((stem ++ toString k) :: used) names) :
      LeastUnused stem used ((stem ++ toString k) :: names)

namespace LeastUnused

variable {stem : String} {used used' names names' : List String}

/-- Only which names are in use matters. -/
theorem congr (h : LeastUnused stem used names) (same : ∀ x, x ∈ used ↔ x ∈ used') :
    LeastUnused stem used' names := by
  induction h generalizing used' with
  | nil => exact .nil used'
  | cons least _ ih =>
    refine .cons ?_ (ih fun x => ?_)
    · simpa only [same] using least
    · rw [List.mem_cons, List.mem_cons, same x]

/-- Names that are handed out later follow when the earlier ones are in use. -/
theorem append (h : LeastUnused stem used names) (h' : LeastUnused stem used' names')
    (both : ∀ x, x ∈ used' ↔ x ∈ used ∨ x ∈ names) : LeastUnused stem used (names ++ names') := by
  induction h with
  | nil => exact h'.congr fun x => by simpa using both x
  | cons least _ ih =>
    refine .cons least (ih fun x => ?_)
    rw [both x, List.mem_cons, List.mem_cons]
    tauto

end LeastUnused

namespace FreshNames

variable {s : FreshNames}

/-- All names with a number below the one at which the search begins are in use. -/
def Dense (s : FreshNames) : Prop :=
  ∀ k < s.next, s.numbered k ∈ s.used

/-- No number is below the one at which the search of a new supply begins. -/
theorem dense_ofUsed (names : List String) (stem : String) : (ofUsed names stem).Dense :=
  fun _ below => absurd below (Nat.not_lt_zero _)

/-- All names with a number below the one that is handed out are in use. -/
theorem Dense.mem_used (h : s.Dense) {k : Nat} (below : k < s.free) : s.numbered k ∈ s.used := by
  rcases Nat.lt_or_ge k s.next with before | above
  · exact h k before
  · exact mem_used_of_lt_leastFree above below

/-- A supply that has handed out a name begins its search behind it, and what it passed over is in
use. -/
theorem Dense.fresh (h : s.Dense) : s.fresh.2.Dense := fun _ below =>
  List.mem_cons_of_mem _ (h.mem_used below)

/-- The name that is handed out has the least number that is free. -/
theorem Dense.isLeast (h : s.Dense) : IsLeast {k | s.numbered k ∉ s.used} s.free :=
  ⟨s.fresh_notMem, fun _ free => Nat.not_lt.1 fun below => free (h.mem_used below)⟩

end FreshNames

/-- The items of one type are given the least unused names, from left to right. -/
theorem extractItems_leastUnused {supply : FreshNames} {items : List Ref} {h : Extracted}
    (e : extractItems supply items = .ok h) (dense : supply.Dense) :
    LeastUnused supply.stem supply.used (h.moved.map (·.1)) ∧ h.supply.Dense := by
  induction items generalizing supply h with
  | nil =>
    cases e
    exact ⟨.nil _, dense⟩
  | cons r rest ih =>
    obtain ⟨s, h', -, e', rfl⟩ | ⟨t, h', -, e', rfl⟩ := extractItems_cons_cases e
    · obtain ⟨least, dense'⟩ := ih e' dense
      exact ⟨least, dense'⟩
    · obtain ⟨later, dense'⟩ := ih e' dense.fresh
      exact ⟨.cons dense.isLeast later, dense'⟩

/-- The names in the log have the least numbers. -/
theorem extract_leastUnused {supply : FreshNames} {queue : List Nested} {log : List Extraction}
    {b : Bindings} (e : extract supply queue = .ok (log, b)) (dense : supply.Dense) :
    LeastUnused supply.stem supply.used (log.map (·.name)) := by
  induction e using extract_induction with
  | nil supply =>
    exact .nil _
  | cons supply name t rest h body log' b' e' _ e'' _ ih =>
    have faithful := extractItems_faithful e'
    obtain ⟨first, dense'⟩ := extractItems_leastUnused e' dense
    have later := ih dense'
    rw [faithful.stem] at later
    rw [List.map_append, Extraction.names_all]
    exact first.append later faithful.used

/-! ### The order -/

/-- The types that are met, in the order in which they are taken from the queue. -/
def Nested.pending (queue : List Nested) (log : List Extraction) : List Nested :=
  queue ++ log.map fun x => (x.name, x.type)

/-- The types taken from the queue are those that are met. -/
theorem Nested.mem_pending {queue : List Nested} {log : List Extraction} {p : Nested} :
    p ∈ Nested.pending queue log ↔ Nested.Met queue log p := by
  rw [Nested.pending, List.mem_append, Nested.Met, List.mem_map]
  refine or_congr_right ⟨?_, ?_⟩
  · rintro ⟨x, hx, rfl⟩
    exact ⟨x.owner, hx⟩
  · rintro ⟨owner, logged⟩
    exact ⟨_, logged, rfl⟩

/-- The items of a type that are no texts, from left to right, each with the name of the type. -/
def Nested.places (p : Nested) : List (String × Ref) :=
  p.2.items.filterMap fun
    | .name _ => none
    | r => some (p.1, r)

/-- An entry of the log is about an item: it has the item's owner, and the type that the item stands
for under the entry's name. -/
def Extraction.IsFor (place : String × Ref) (x : Extraction) : Prop :=
  x.owner = place.1 ∧ place.2.TypedAs x.name x.type

/-- The types moved out of a type are those of its items, from left to right. -/
theorem extractItems_places {supply : FreshNames} {items : List Ref} {h : Extracted}
    (e : extractItems supply items = .ok h) (owner : String) :
    List.Forall₂ Extraction.IsFor (Nested.places (owner, .product items))
      (Extraction.all owner h.moved) := by
  induction items generalizing supply h with
  | nil =>
    cases e
    exact .nil
  | cons r rest ih =>
    obtain ⟨s, h', rfl, e', rfl⟩ | ⟨t, h', typed, e', rfl⟩ := extractItems_cons_cases e
    · have others := ih e'
      exact others
    · have first : Extraction.IsFor (owner, r) ⟨supply.fresh.1, t, owner⟩ := ⟨rfl, typed⟩
      cases typed with
      | inline => exact .cons first (ih e')
      | deferred => exact .cons first (ih e')

/-- The log has one entry for every item that is no text in the types that are met, in the order in
which these are met, and from left to right within each. -/
theorem extract_places {supply : FreshNames} {queue : List Nested} {log : List Extraction}
    {b : Bindings} (e : extract supply queue = .ok (log, b)) :
    List.Forall₂ Extraction.IsFor ((Nested.pending queue log).flatMap Nested.places) log := by
  induction e using extract_induction with
  | nil =>
    exact .nil
  | cons supply name t rest h body log' b' e' _ e'' _ ih =>
    -- the types moved out of the first one open the log, and go behind the rest of the queue
    have order : Nested.pending ((name, t) :: rest) (Extraction.all name h.moved ++ log') =
        (name, t) :: Nested.pending (rest ++ h.moved) log' := by
      simp [Nested.pending, Extraction.all, Function.comp_def]
    rw [order, List.flatMap_cons]
    exact List.rel_append (extractItems_places e' name) ih

/-- Every type that is met is in the queue or nested there, so no more names are bound than types
are written there. -/
theorem extract_length_le {supply : FreshNames} {queue : List Nested} {log : List Extraction}
    {b : Bindings} (e : extract supply queue = .ok (log, b)) :
    b.length ≤ Nested.weights queue := by
  induction e using extract_induction with
  | nil =>
    exact Nat.zero_le _
  | cons supply name t rest h body log' b' e' _ e'' _ ih =>
    have later := ih
    have moved := weights_extractItems e'
    have smaller := Ty.weights_items_lt t
    rw [Nested.weights_append] at later
    rw [List.length_cons, Nested.weights]
    omega

end TreeGrammar
