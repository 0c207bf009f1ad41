import Mathlib
import TreeGrammar.Proofs.Bindings.Opening

/-!
# What unions are flattened to

Opening the unions in a union again and again leaves, in the end, the members that are no unions:
those that a walk through all unions meets, depth first and from left to right, each where it is met
first. This says what flattening computes without saying in which order it goes about it. The order
of the bindings decides which unions have been opened when another one is, and repetitions are
dropped on the way; neither has any influence on what is left.

* `eraseDups_flatMap_eraseDups`: repetitions may be dropped on the way.
* `Bindings.Frontier`: the members that a walk meets, repetitions included.
* `Bindings.flatten_members?`: what each union is flattened to.
-/

namespace TreeGrammar

/-! ### Dropping repetitions on the way -/

/-- Names may be dropped before their repetitions are, or after. -/
theorem filter_eraseDups (p : String → Bool) (l : List String) :
    (l.filter p).eraseDups = l.eraseDups.filter p := by
  induction l using filter_induction with
  | nil => rfl
  | cons a rest ih =>
    have later := ih fun x => !x == a
    rw [List.filter_filter] at later
    rw [List.eraseDups_cons, List.filter_cons, List.filter_cons, ← later]
    by_cases kept : p a = true
    · rw [if_pos kept, if_pos kept, List.eraseDups_cons, List.filter_filter]
      simp only [Bool.and_comm]
    · rw [if_neg kept, if_neg kept]
      congr 1
      refine List.filter_congr fun x _ => ?_
      by_cases same : x = a
      · simpa [same] using kept
      · simp [same]

/-- Two lists without repetitions decide what is left of both together. -/
theorem eraseDups_append_congr {l l' m m' : List String} (first : l.eraseDups = l'.eraseDups)
    (second : m.eraseDups = m'.eraseDups) : (l ++ m).eraseDups = (l' ++ m').eraseDups := by
  have same : ∀ x, x ∈ l ↔ x ∈ l' := fun x => by
    rw [← List.mem_eraseDups, first, List.mem_eraseDups]
  rw [List.eraseDups_append, List.eraseDups_append, first, List.removeAll, List.removeAll,
    filter_eraseDups, filter_eraseDups, second]
  congr 1
  refine List.filter_congr fun x _ => ?_
  simp [same x]

/-- What lists are without repetitions decides what is left of all of them together. -/
theorem eraseDups_flatMap_congr {F G : String → List String} {l : List String}
    (same : ∀ x ∈ l, (F x).eraseDups = (G x).eraseDups) :
    (l.flatMap F).eraseDups = (l.flatMap G).eraseDups := by
  induction l with
  | nil => rfl
  | cons x rest ih =>
    rw [List.forall_mem_cons] at same
    exact eraseDups_append_congr same.1 (ih same.2)

/-- What an item brings once it brings nothing new again. -/
theorem eraseDups_append_flatMap_filter (F : String → List String) (a : String) (l : List String) :
    (F a ++ (l.filter fun x => !x == a).flatMap F).eraseDups = (F a ++ l.flatMap F).eraseDups := by
  rw [List.eraseDups_append, List.eraseDups_append, List.removeAll, List.removeAll,
    List.filter_flatMap, List.filter_flatMap]
  congr 2
  induction l with
  | nil => rfl
  | cons x rest ih =>
    rw [List.flatMap_cons, List.filter_cons]
    by_cases same : x = a
    · subst same
      have nothing : (F x).filter (fun y => !(F x).elem y) = [] := by simp
      rw [if_neg (by simp), nothing, List.nil_append, ih]
    · rw [if_pos (by simpa using same), List.flatMap_cons, ih]

/-- Repetitions among the items bring nothing. -/
theorem eraseDups_flatMap_eraseDups (F : String → List String) (l : List String) :
    (l.eraseDups.flatMap F).eraseDups = (l.flatMap F).eraseDups := by
  induction l using filter_induction with
  | nil => rfl
  | cons a rest ih =>
    rw [List.eraseDups_cons, List.flatMap_cons, List.flatMap_cons,
      ← eraseDups_append_flatMap_filter F a rest]
    exact eraseDups_append_congr rfl (ih _)

/-- Names that stay distinct under other names repeat where they did. -/
theorem eraseDups_map {f : String → String} (injective : Function.Injective f)
    (l : List String) : (l.map f).eraseDups = l.eraseDups.map f := by
  induction l using filter_induction with
  | nil => rfl
  | cons a rest ih =>
    rw [List.map_cons, List.eraseDups_cons, List.eraseDups_cons, List.map_cons, ← ih,
      List.filter_map]
    congr 3
    refine List.filter_congr fun x _ => ?_
    simp [injective.eq_iff]

/-! ### The members that a walk meets -/

namespace Bindings

variable {b c c' flat : Bindings} {s t x : String} {items : List String} {count k : Nat}

/-- The members that a walk from a name or a tag meets, from left to right, if it goes no deeper
than `depth`: from a union it goes on to the members, and anything else is where it ends. -/
def walk (b : Bindings) : (depth : Nat) → String → List String
  | 0, s => [s]
  | depth + 1, s =>
    match b.members? s with
    | some items => items.flatMap (b.walk depth)
    | none => [s]

/-- The members that a walk meets, repetitions included. It goes as deep as it may have to. -/
def frontier (b : Bindings) (s : String) : List String :=
  b.walk (b.length + 1) s

/-- Equation lemma: a walk goes from a union on to its members, one level less deep. -/
theorem walk_union (found : b.members? s = some items) :
    b.walk (k + 1) s = items.flatMap (b.walk k) := by
  rw [walk, found]

/-- Equation lemma: a walk ends at what is no union, however deep it might go. -/
theorem walk_other (none : b.members? s = none) (k : Nat) : b.walk k s = [s] := by
  cases k with
  | zero => rfl
  | succ k => rw [walk, none]

/-- Walks that may go deeper than they have to meet the same. -/
theorem walk_stable {r : String → Nat} (less : ∀ s t, b.Nests s t → r t < r s) {k k' : Nat}
    (deep : r s < k) (deep' : r s < k') : b.walk k s = b.walk k' s := by
  induction k generalizing s k' with
  | zero => omega
  | succ k ih =>
    obtain ⟨k', rfl⟩ := Nat.exists_eq_succ_of_ne_zero (Nat.ne_zero_of_lt deep')
    rcases found : b.members? s with _ | items
    · rw [walk_other found, walk_other found]
    · rw [walk_union found, walk_union found]
      refine List.flatMap_congr fun x hx => ?_
      rcases union : b.members? x with _ | sub
      · rw [walk_other union, walk_other union]
      · have := less s x ⟨items, found, hx, by rw [union]; exact Option.some_ne_none sub⟩
        exact ih (by omega) (by omega)

/-- Equation lemma: what is no union is its own frontier. -/
theorem frontier_other (none : b.members? s = none) : b.frontier s = [s] :=
  walk_other none _

/-! ### What flattening leaves -/

/-- Opening a union leaves the members that walks meet, if unions still had them before. -/
theorem Opens.frontier_kept (h : c.Opens x items c')
    (kept : ∀ s items, c.members? s = some items →
      (items.flatMap b.frontier).eraseDups = (b.frontier s).eraseDups)
    {members : List String} (found : c'.members? s = some members) :
    (members.flatMap b.frontier).eraseDups = (b.frontier s).eraseDups := by
  by_cases e : s = x
  · subst e
    rw [h.opened] at found
    cases found
    rw [expand, eraseDups_flatMap_eraseDups, List.flatMap_assoc, ← kept s items h.bound]
    refine eraseDups_flatMap_congr fun y _ => ?_
    rcases sub : c.members? y with _ | members
    · exact congrArg List.eraseDups (List.append_nil _)
    · exact kept y members sub
  · rw [h.members?_of_ne e] at found
    exact kept s members found

section

variable (acyclic : ∀ s, ¬Relation.TransGen b.Nests s s)
include acyclic

/-- Where no chain of unions in unions comes back to its beginning, a walk is never cut short. -/
theorem walk_eq_frontier (deep : b.length < k) : b.walk k s = b.frontier s := by
  obtain ⟨r, short, less⟩ := exists_spread acyclic
  have := short s
  exact walk_stable (fun s t step => less s t step) (by omega) (by omega)

/-- The frontier of a union is that of its members, one after the other. A walk that starts at a
member need not go as deep, so the depth allowed makes no difference. -/
theorem frontier_union (found : b.members? s = some items) :
    b.frontier s = items.flatMap b.frontier := by
  rw [← walk_eq_frontier acyclic (by omega : b.length < b.length + 1 + 1), walk_union found]
  rfl

/-- Flattening leaves unions the members that a walk meets in them, each where it is met first. -/
theorem flatten_members? (h : b.flatten = .ok (flat, count)) (distinct : b.names.Nodup)
    (flat' : flat.Flat) (found : flat.members? s = some items) :
    items = (b.frontier s).eraseDups := by
  have kept := passes_rule (I := fun c => (∀ s, c.members? s = none ↔ b.members? s = none) ∧
    ∀ s items, c.members? s = some items →
      (items.flatMap b.frontier).eraseDups = (b.frontier s).eraseDups) h distinct ?_
    ⟨fun _ => Iff.rfl, fun s items found => by rw [frontier_union acyclic found]⟩
  · have ends : ∀ y ∈ items, b.frontier y = [y] := by
      intro y hy
      refine frontier_other ((kept.1 y).1 ?_)
      by_contra union
      exact flat'.apart s y ⟨items, found, hy, union⟩
    rw [← kept.2 s items found, List.flatMap_congr ends, List.flatMap_singleton',
      eraseDups_of_nodup (flat'.distinct s items found)]
  · rintro c x members c' hc ⟨kinds, kept⟩
    exact ⟨fun s => hc.members?_eq_none_iff.trans (kinds s),
      fun s items found => hc.frontier_kept kept found⟩

end

end Bindings

end TreeGrammar
