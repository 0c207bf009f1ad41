import Mathlib
import TreeGrammar.Proofs.Bindings.Frontier
import TreeGrammar.Proofs.Bindings.Rebuilding

/-!
# Flattening computes the frontiers of unions

Passes that may go on for ever end, and the number of passes that flattening allows itself never
cuts them short. They fail exactly if there is a cycle of unions in unions, and report a union on
one. Otherwise every union is left with the members that a walk from it through unions meets, depth
first and from left to right, each where it is met first; all else stays what and where it is. The
order of the bindings has no say in it.

* `Bindings.Ends`: passes without a limit, and what they end with.
* `Bindings.ends_flatten`: they end with what flattening returns.
* `Bindings.flatten_error_iff`: flattening fails because of cycles of unions in unions only.
* `Bindings.Walks`: the members that a walk through unions meets.
* `Bindings.Flattened`, `Bindings.Ready.flatten_walks`: what flattening leaves.
-/

namespace TreeGrammar

namespace Bindings

variable {b b' c c' flat flat' : Bindings} {s t x : String} {items l l' : List String}
  {count count' fuel : Nat}

/-! ### Passes without a limit -/

/-- Passes go on until one fails or opens nothing, however long that takes. What they end with is
given with the number of passes, of which there were `count` before. -/
inductive Ends : Bindings → Nat → Except Failure (Bindings × Nat) → Prop
  | failed {b : Bindings} {count : Nat} {e : Failure} (h : pass [] b = .error e) :
      Ends b count (.error e)
  | last {b c : Bindings} {count : Nat} (h : pass [] b = .ok (c, false)) :
      Ends b count (.ok (c, count + 1))
  | again {b c : Bindings} {count : Nat} {r : Except Failure (Bindings × Nat)}
      (h : pass [] b = .ok (c, true)) (rest : Ends c (count + 1) r) : Ends b count r

/-- Passes end with one thing only. -/
theorem Ends.unique {r r' : Except Failure (Bindings × Nat)} (first : b.Ends count r)
    (second : b.Ends count r') : r = r' := by
  induction first with
  | failed h =>
    cases second with
    | failed h' => rw [h] at h'; cases h'; rfl
    | last h' => rw [h] at h'; cases h'
    | again h' => rw [h] at h'; cases h'
  | last h =>
    cases second with
    | failed h' => rw [h] at h'; cases h'
    | last h' => rw [h] at h'; cases h'; rfl
    | again h' => rw [h] at h'; cases h'
  | again h _ ih =>
    cases second with
    | failed h' => rw [h] at h'; cases h'
    | last h' => rw [h] at h'; cases h'
    | again h' rest' =>
      rw [h] at h'
      cases h'
      exact ih rest'

/-- One pass more and what follows. -/
theorem passes_succ_cases (b : Bindings) (count fuel : Nat) :
    (∃ e, pass [] b = .error e ∧ b.passes count (fuel + 1) = .error e) ∨
    (∃ c, pass [] b = .ok (c, false) ∧ b.passes count (fuel + 1) = .ok (c, count + 1)) ∨
    ∃ c, pass [] b = .ok (c, true) ∧ b.passes count (fuel + 1) = c.passes (count + 1) fuel := by
  rcases passed : pass [] b with e | ⟨c, opened⟩
  · exact Or.inl ⟨e, rfl, by rw [passes, passed]⟩
  · cases opened with
    | false =>
      refine Or.inr (Or.inl ⟨c, rfl, ?_⟩)
      rw [passes, passed]
      rfl
    | true =>
      refine Or.inr (Or.inr ⟨c, rfl, ?_⟩)
      rw [passes, passed]
      rfl

/-- Passes that fail would have failed without a limit. -/
theorem ends_of_passes_error {e : Failure} (h : b.passes count fuel = .error e) :
    b.Ends count (.error e) := by
  induction fuel generalizing b count with
  | zero =>
    rw [passes] at h
    cases h
  | succ fuel ih =>
    obtain ⟨e', failed, result⟩ | ⟨c, passed, result⟩ | ⟨c, passed, result⟩ :=
      passes_succ_cases b count fuel
    · rw [h] at result
      cases result
      exact .failed failed
    · rw [h] at result
      cases result
    · exact .again passed (ih (result ▸ h))

/-- Passes are not cut short if more of them are left than there is a way from a union to one of its
members: after these no union has a union among its members, and one more pass finds that out. -/
theorem ends_passes {r : String → Nat} {k : Nat} (distinct : b.names.Nodup)
    (inhabited : b.Inhabited) (pos : 0 < k) (spread : ∀ s, b.Spread r k s)
    (short : ∀ s, r s < k + fuel)
    (once : fuel = 0 → ∀ s items, b.members? s = some items → items.Nodup) :
    b.Ends count (b.passes count (fuel + 1)) := by
  induction fuel generalizing b count k with
  | zero =>
    have flat : b.Flat := by
      refine ⟨fun s t nests => ?_, once rfl⟩
      have far := spread s t nests
      have near := short s
      omega
    have passed : pass [] b = .ok (b, false) := @Flat.pass [] b flat distinct inhabited
    rw [passes, passed]
    exact .last passed
  | succ fuel ih =>
    obtain ⟨e, failed, result⟩ | ⟨c, passed, result⟩ | ⟨c, passed, result⟩ :=
      passes_succ_cases b count (fuel + 1)
    · rw [result]
      exact .failed failed
    · rw [result]
      exact .last passed
    · rw [result]
      refine .again passed (ih (by rwa [pass_names passed distinct]) ?_ (Nat.succ_pos k)
        (pass_spread passed distinct pos spread) (fun s => ?_) fun _ s items =>
          pass_distinct passed distinct)
      · exact pass_preserves passed distinct (fun _ _ _ _ hc all => hc.inhabited all) inhabited
      · have := short s
        omega

/-! ### Why flattening fails -/

/-- Where opening unions leaves a union in another one there was a way to it before. -/
def NestsAmong (b c : Bindings) : Prop :=
  ∀ s t, c.Nests s t → Relation.TransGen b.Nests s t

/-- Opening a union leads nowhere new: a union among its members was one among the members of a
member. -/
theorem Opens.nestsAmong (h : c.Opens x items c') (among : b.NestsAmong c) : b.NestsAmong c' := by
  intro s t step
  by_cases e : s = x
  · subst e
    obtain ⟨members, found, member, union⟩ := step
    rw [h.opened] at found
    cases found
    rw [ne_eq, h.members?_eq_none_iff] at union
    rcases mem_expand.1 member with ⟨-, none⟩ | ⟨y, hy, sub, found, inside⟩
    · exact absurd none union
    · have first : c.Nests s y := ⟨items, h.bound, hy, by rw [found]; exact Option.some_ne_none sub⟩
      exact (among s y first).trans (among y t ⟨sub, found, inside, union⟩)
  · exact among s t (h.nests_of_ne e step)

section

variable (distinct : b.names.Nodup) (inhabited : b.Inhabited)
include distinct inhabited

/-- What flattening reports is a union from which unions in unions lead back to it. -/
theorem exists_cycle_of_flatten_error {e : Failure} (h : b.flatten = .error e) :
    ∃ s, e = .noFiniteBase s .expanding ∧ Relation.TransGen b.Nests s s := by
  obtain ⟨c, s, members, ⟨among, all⟩, found, ⟨e, own⟩ | ⟨e, none⟩⟩ :=
    passes_error_rule (I := fun c => b.NestsAmong c ∧ c.Inhabited) h distinct
      (fun _ _ _ _ hc held => ⟨hc.nestsAmong held.1, hc.inhabited held.2⟩)
      ⟨fun s t step => .single step, inhabited⟩
  · exact ⟨s, e, among s s ⟨members, found, own, by rw [found]; exact Option.some_ne_none members⟩⟩
  · exact absurd none (expand_ne_nil all found)

/-- Flattening fails because of cycles of unions in unions only. -/
theorem flatten_error_iff :
    (∃ e, b.flatten = .error e) ↔ ∃ s, Relation.TransGen b.Nests s s := by
  refine ⟨fun ⟨e, failed⟩ => ?_, fun ⟨s, cycle⟩ => exists_flatten_error distinct cycle⟩
  obtain ⟨s, -, cycle⟩ := exists_cycle_of_flatten_error distinct inhabited failed
  exact ⟨s, cycle⟩

/-- Passes without a limit end with what flattening returns. -/
theorem ends_flatten : b.Ends 0 b.flatten := by
  by_cases cyclic : ∃ s, Relation.TransGen b.Nests s s
  · obtain ⟨e, failed⟩ := (flatten_error_iff distinct inhabited).2 cyclic
    rw [failed]
    exact ends_of_passes_error failed
  · obtain ⟨r, short, spread⟩ := exists_spread (not_exists.1 cyclic)
    refine ends_passes distinct inhabited Nat.one_pos spread (fun s => ?_) nofun
    have := short s
    omega

end

/-! ### Walks through unions -/

mutual

/-- The members that a walk from a name or a tag meets, depth first and from left to right, however
deep it goes: a union is left for its members, and anything else is met. -/
inductive Walks (b : Bindings) : String → List String → Prop
  | ends {s : String} (other : b.members? s = none) : Walks b s [s]
  | union {s : String} {items l : List String} (found : b.members? s = some items)
      (each : WalksAll b items l) : Walks b s l

/-- What walks from several names or tags meet, one walk after the other. -/
inductive WalksAll (b : Bindings) : List String → List String → Prop
  | nil : WalksAll b [] []
  | cons {s : String} {rest l l' : List String} (first : Walks b s l)
      (others : WalksAll b rest l') : WalksAll b (s :: rest) (l ++ l')

end

mutual

/-- A walk meets what it meets: there is no other outcome. -/
theorem Walks.unique {b : Bindings} {s : String} {l l' : List String} :
    b.Walks s l → b.Walks s l' → l = l'
  | .ends other, second => by
    cases second with
    | ends => rfl
    | union found' => rw [other] at found'; cases found'
  | .union found each, second => by
    cases second with
    | ends other' => rw [found] at other'; cases other'
    | union found' each' =>
      rw [found] at found'
      cases found'
      exact each.unique each'

/-- Walks from several names or tags have no other outcome either. -/
theorem WalksAll.unique {b : Bindings} {items l l' : List String} :
    b.WalksAll items l → b.WalksAll items l' → l = l'
  | .nil, second => by
    cases second
    rfl
  | .cons first others, second => by
    cases second with
    | cons first' others' => rw [first.unique first', others.unique others']

end

/-- Walks from several names or tags meet what each of them meets, one after the other. -/
theorem walksAll_flatMap {F : String → List String} (each : ∀ x ∈ items, b.Walks x (F x)) :
    b.WalksAll items (items.flatMap F) := by
  induction items with
  | nil => exact .nil
  | cons x rest ih =>
    obtain ⟨first, others⟩ := List.forall_mem_cons.1 each
    exact .cons first (ih others)

/-- Where no chain of unions in unions comes back to its beginning a walk comes to an end, and it
meets the frontier. -/
theorem walks_frontier (acyclic : ∀ s, ¬Relation.TransGen b.Nests s s) (s : String) :
    b.Walks s (b.frontier s) := by
  obtain ⟨r, -, less⟩ := exists_spread acyclic
  induction bound : r s using Nat.strong_induction_on generalizing s with
  | _ n ih =>
    rcases found : b.members? s with _ | items
    · rw [frontier_other found]
      exact .ends found
    · rw [frontier_union acyclic found]
      refine .union found (walksAll_flatMap fun x hx => ?_)
      rcases inner : b.members? x with _ | sub
      · rw [frontier_other inner]
        exact .ends inner
      · have := less s x ⟨items, found, hx, by rw [inner]; exact Option.some_ne_none sub⟩
        exact ih (r x) (by omega) x rfl

/-! ### The order of the bindings -/

/-- Bindings in another order bind the same names in another order. -/
theorem names_perm (perm : b'.Perm b) : b'.names.Perm b.names :=
  List.Perm.map _ perm

/-- Where names are distinct the order of the bindings is no matter when one is looked up. -/
theorem lookup_of_perm (perm : b'.Perm b) (distinct : b.names.Nodup) (s : String) :
    b'.lookup s = b.lookup s := by
  have distinct' : b'.names.Nodup := (names_perm perm).nodup_iff.2 distinct
  refine Option.ext fun body => ⟨fun found => ?_, fun found => ?_⟩
  · exact lookup_eq_of_mem distinct (perm.mem_iff.1 (mem_of_lookup found))
  · exact lookup_eq_of_mem distinct' (perm.mem_iff.2 (mem_of_lookup found))

section

variable (same : ∀ s, b'.lookup s = b.lookup s)
include same

/-- Bindings in which the same is found have the same members. -/
theorem members?_of_lookup (s : String) : b'.members? s = b.members? s := by
  rw [members?, members?, same]

/-- Bindings in which the same is found have the same unions in unions. -/
theorem nests_of_lookup : b'.Nests = b.Nests := by
  funext s t
  simp only [Nests, members?_of_lookup same]

end

mutual

/-- A walk goes by what is bound, wherever that stands. -/
theorem Walks.of_lookup {b b' : Bindings} (same : ∀ s, b'.lookup s = b.lookup s) {s : String}
    {l : List String} : b.Walks s l → b'.Walks s l
  | .ends other => .ends ((members?_of_lookup same s).trans other)
  | .union found each => .union ((members?_of_lookup same s).trans found) (each.of_lookup same)

/-- In bindings in which the same is found walks meet the same. -/
theorem WalksAll.of_lookup {b b' : Bindings} (same : ∀ s, b'.lookup s = b.lookup s)
    {items l : List String} : b.WalksAll items l → b'.WalksAll items l
  | .nil => .nil
  | .cons first others => .cons (first.of_lookup same) (others.of_lookup same)

end

/-- Bindings in another order are ready as well. -/
theorem Ready.of_perm (ready : b.Ready) (perm : b'.Perm b) : b'.Ready := by
  have names := names_perm perm
  refine ⟨names.nodup_iff.2 ready.distinct, fun p hp => ready.untagged p (perm.mem_iff.1 hp),
    fun p hp item hitem => ?_, fun s => ?_⟩
  · exact (ready.accounted p (perm.mem_iff.1 hp) item hitem).imp_right names.mem_iff.2
  · rw [members?_of_lookup (lookup_of_perm perm ready.distinct)]
    exact ready.inhabited s

/-! ### What flattening leaves -/

/-- Bindings `flat` are the bindings `b` with every union flattened. -/
structure Flattened (b flat : Bindings) : Prop where
  names : flat.names = b.names
  others : ∀ s, b.members? s = none → flat.lookup s = b.lookup s
  unions : ∀ s items, b.members? s = some items →
    ∃ l, b.Walks s l ∧ flat.members? s = some l.eraseDups

/-- Flattening leaves each union with what a walk from it meets. -/
theorem Ready.flattened (ready : b.Ready) (h : b.flatten = .ok (flat, count)) :
    b.Flattened flat := by
  have acyclic : ∀ s, ¬Relation.TransGen b.Nests s s := fun s cycle => by
    obtain ⟨e, failed⟩ := exists_flatten_error ready.distinct cycle
    rw [h] at failed
    cases failed
  have others := flatten_others h ready.distinct
  refine ⟨(ready.flatten h).1, fun s => (others s).1, fun s items found => ?_⟩
  refine ⟨b.frontier s, walks_frontier acyclic s, ?_⟩
  obtain ⟨texts, left⟩ := Option.ne_none_iff_exists'.1 fun none => by
    rw [(others s).2, found] at none
    cases none
  rw [left, flatten_members? acyclic h ready.distinct ?_ left]
  have among := passes_rule (I := b.NestsAmong) h ready.distinct
    (fun _ _ _ _ hc held => hc.nestsAmong held) fun s t step => .single step
  exact flatten_flat h ready.distinct fun s cycle =>
    acyclic s (Relation.TransGen.closed (fun s t step => among s t step) s s cycle)

/-- What is left of bindings is what is left of them in another order. -/
theorem Flattened.lookup_eq (h : b.Flattened flat) (h' : b'.Flattened flat')
    (same : ∀ s, b'.lookup s = b.lookup s) (s : String) : flat'.lookup s = flat.lookup s := by
  rcases found : b.members? s with _ | items
  · rw [h.others s found, h'.others s ((members?_of_lookup same s).trans found), same]
  · obtain ⟨l, walks, left⟩ := h.unions s items found
    obtain ⟨l', walks', left'⟩ := h'.unions s items ((members?_of_lookup same s).trans found)
    rw [members?_eq_some_iff] at left left'
    rw [left, left', walks'.unique (walks.of_lookup same)]

/-- Flattening bindings in which each name is bound once, no tag is, each item is a tag or bound and
each union has members. Passes without a limit end, with what flattening returns. This is a failure
exactly if there is a cycle of unions in unions, and a union on such a cycle is reported. Otherwise
all names keep their places, what is no union stays, and unions have the members that walks from
them meet, each where it is met first. It is the same for the bindings in any order. -/
theorem Ready.flatten_walks (ready : b.Ready) :
    (∀ r, b.Ends 0 r ↔ r = b.flatten) ∧
    ((∃ e, b.flatten = .error e) ↔ ∃ s, Relation.TransGen b.Nests s s) ∧
    (∀ e, b.flatten = .error e →
      ∃ s, e = .noFiniteBase s .expanding ∧ Relation.TransGen b.Nests s s) ∧
    (∀ flat count, b.flatten = .ok (flat, count) → b.Flattened flat) ∧
    ∀ b' : Bindings, b'.Perm b →
      ((∃ e, b'.flatten = .error e) ↔ ∃ e, b.flatten = .error e) ∧
      ∀ flat count flat' count', b.flatten = .ok (flat, count) →
        b'.flatten = .ok (flat', count') → ∀ s, flat'.lookup s = flat.lookup s := by
  have ends := ends_flatten ready.distinct ready.inhabited
  refine ⟨fun r => ⟨fun h => h.unique ends, ?_⟩, flatten_error_iff ready.distinct ready.inhabited,
    fun e => exists_cycle_of_flatten_error ready.distinct ready.inhabited,
    fun flat count => ready.flattened, fun b' perm => ?_⟩
  · rintro rfl
    exact ends
  · have ready' := ready.of_perm perm
    have same := lookup_of_perm perm ready.distinct
    refine ⟨?_, fun flat count flat' count' h h' =>
      (ready.flattened h).lookup_eq (ready'.flattened h') same⟩
    rw [flatten_error_iff ready'.distinct ready'.inhabited,
      flatten_error_iff ready.distinct ready.inhabited, nests_of_lookup same]

/-- Of unions that are members of each other one becomes its own member, and is reported. -/
example : Bindings.flatten [("S", .union ["T"]), ("T", .union ["S", "v_x"])] =
    .error (.noFiniteBase "S" .expanding) := by
  cbv

/-- Unions in unions, one of which is met twice, and a product in one of them. -/
def nested : Bindings :=
  [("S", .union ["T", "v_x", "U"]), ("T", .union ["U", "P"]), ("U", .union ["v_y", "v_x"]),
    ("P", .product ["S", "T"])]

/-- The same with unions that have the members that walks meet. -/
def nestedFlat : Bindings :=
  [("S", .union ["v_y", "v_x", "P"]), ("T", .union ["v_y", "v_x", "P"]),
    ("U", .union ["v_y", "v_x"]), ("P", .product ["S", "T"])]

/-- The unions in unions are ready. -/
theorem nested_ready : nested.Ready := by
  refine ⟨by decide, by decide, by decide, fun s found => ?_⟩
  have member := mem_of_lookup (members?_eq_some_iff.1 found)
  simp [nested] at member

/-- Two passes open unions, and a third finds nothing to open. -/
theorem nested_flatten : nested.flatten = .ok (nestedFlat, 3) := by
  cbv

/-- The unions in unions become what walks meet, and the same comes of them from last to first. -/
theorem Ready.flatten_walks_nested :
    nested.Flattened nestedFlat ∧
      ∀ flat count, Bindings.flatten nested.reverse = .ok (flat, count) →
        ∀ s, flat.lookup s = nestedFlat.lookup s := by
  obtain ⟨-, -, -, flattened, ordered⟩ := Ready.flatten_walks nested_ready
  refine ⟨flattened _ _ nested_flatten, fun flat count => ?_⟩
  exact (ordered _ nested.reverse_perm).2 _ _ flat count nested_flatten

end Bindings

end TreeGrammar
