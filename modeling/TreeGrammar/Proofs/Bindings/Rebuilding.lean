import Mathlib
import TreeGrammar.Proofs.Bindings.WellFormed
import TreeGrammar.Sampling.Sampler

/-!
# Normalising a grammar again

A grammar that normalisation has returned is a fixed point of every stage. The definitions it
amounts to are accepted, no type is moved out of another, a single pass opens no union, and no name
is an alias for itself; so the same grammar comes out, in the same order.

* `exists_definitionsOf`: the definitions that a grammar amounts to.
* `extract_texts`: nothing is moved out of types whose items are texts.
* `Bindings.Flat.flatten`: bindings without unions in unions stay as they are.
* `ofDefinitions?_idempotent`: normalising a grammar again gives the same grammar.
-/

namespace TreeGrammar

/-! ### The definitions again -/

/-- A grammar amounts to one definition for each name, if each may be defined. -/
theorem exists_definitionsOf {types : List (String × Ty)}
    (definable : ∀ p ∈ types, IsDefinable p.1) :
    ∃ ds, Grammar.definitionsOf types = .ok ds ∧ ds.map (fun d => (d.name, d.type)) = types := by
  induction types with
  | nil => exact ⟨[], rfl, rfl⟩
  | cons p rest ih =>
    obtain ⟨name, type⟩ := p
    obtain ⟨first, others⟩ := List.forall_mem_cons.1 definable
    obtain ⟨ds, made, same⟩ := ih others
    have bound : (Operand.ref (.inline type)).bindTo name = .ok (.ref (.inline type)) := rfl
    refine ⟨⟨name, type, first⟩ :: ds, ?_, by rw [List.map_cons, same]⟩
    rw [Grammar.definitionsOf, make_of_bindTo first bound]
    simp only [made]

/-! ### Types whose items are texts -/

/-- Where every item is a text nothing is moved out and no name is handed out. -/
theorem extractItems_texts (supply : FreshNames) (texts : List String) :
    extractItems supply (texts.map .name) = .ok ⟨texts, [], supply⟩ := by
  induction texts with
  | nil => rfl
  | cons s rest ih =>
    rw [List.map_cons, extractItems, ih]

namespace Bindings

/-- Unions that have members, none of them twice. -/
def Trim (b : Bindings) : Prop :=
  ∀ p ∈ b, ∀ texts, p.2 = .union texts → texts ≠ [] ∧ texts.Nodup

end Bindings

/-- A body comes back from its type, if it is no union that would lose members. -/
theorem withTexts_toTy {body : Body} {texts : List String} (items : body.items = texts)
    (trim : ∀ texts, body = .union texts → texts ≠ [] ∧ texts.Nodup) :
    body.toTy.withTexts texts = .ok body := by
  subst items
  cases body with
  | value tag => rfl
  | product texts => rfl
  | union texts =>
    obtain ⟨nonempty, distinct⟩ := trim texts rfl
    rw [Body.toTy, Ty.withTexts, Body.items, if_neg (by simpa using nonempty),
      Bindings.eraseDups_of_nodup distinct]

/-- Nothing is moved out of types whose items are texts. -/
theorem extract_texts {b : Bindings} (supply : FreshNames) (trim : b.Trim) :
    extract supply (b.map fun p => (p.1, p.2.toTy)) = .ok ([], b) := by
  induction b with
  | nil => rw [List.map_nil, extract]
  | cons p rest ih =>
    obtain ⟨name, body⟩ := p
    obtain ⟨first, others⟩ := List.forall_mem_cons.1 trim
    have items : extractItems supply body.toTy.items = .ok ⟨body.items, [], supply⟩ := by
      rw [Body.items_toTy, extractItems_texts]
    rw [List.map_cons, extract]
    split
    · next e =>
      rw [items] at e
      cases e
    · next h e =>
      rw [items] at e
      cases e
      simp only [withTexts_toTy rfl first, List.append_nil, ih others]
      rfl

/-! ### Unions without unions among their members -/

namespace Bindings

variable {b done todo : Bindings}

/-- Opening a union that has no union among its members changes nothing. -/
theorem Flat.expand (flat : b.Flat) {name : String} {items : List String}
    (found : b.members? name = some items) : b.expand items = items := by
  have single : ∀ x ∈ items, (b.members? x).getD [x] = [x] := by
    intro x hx
    rcases sub : b.members? x with _ | sub'
    · rfl
    · exact absurd ⟨items, found, hx, by rw [sub]; exact Option.some_ne_none _⟩ (flat.apart name x)
  rw [Bindings.expand, List.flatMap_congr single, List.flatMap_singleton',
    eraseDups_of_nodup (flat.distinct name items found)]

/-- A pass opens nothing. -/
theorem Flat.pass (flat : (done ++ todo).Flat) (distinct : (done ++ todo).names.Nodup)
    (inhabited : (done ++ todo).Inhabited) :
    Bindings.pass done todo = .ok (done ++ todo, false) := by
  induction todo generalizing done with
  | nil => rw [Bindings.pass, List.append_nil]
  | cons p rest ih =>
    obtain ⟨name, body⟩ := p
    have here : done ++ (name, body) :: rest = done ++ [(name, body)] ++ rest := by
      rw [List.append_assoc]
      rfl
    have later : Bindings.pass (done ++ [(name, body)]) rest =
        .ok (done ++ (name, body) :: rest, false) := by
      rw [here] at flat distinct inhabited ⊢
      exact ih flat distinct inhabited
    rcases body with tag | texts | items
    · rw [pass.eq_3 _ _ _ _ fun _ e => by cases e]
      exact later
    · rw [pass.eq_3 _ _ _ _ fun _ e => by cases e]
      exact later
    · have found : (done ++ (name, .union items) :: rest).members? name = some items :=
        members?_eq_some_iff.2 (lookup_eq_of_mem distinct
          (List.mem_append_right done List.mem_cons_self))
      have apart : name ∉ items := fun own =>
        flat.apart name name ⟨items, found, own, by rw [found]; exact Option.some_ne_none _⟩
      have nonempty : items ≠ [] := fun none => inhabited name (none ▸ found)
      have none : (items.any fun item =>
          ((done ++ (name, .union items) :: rest).members? item).isSome) = false := by
        rw [List.any_eq_false]
        intro x hx some
        exact flat.apart name x ⟨items, found, hx, fun none => by rw [none] at some; cases some⟩
      rw [Bindings.pass, if_neg apart]
      simp only [flat.expand found, later, none, Bool.or_false]
      rw [if_neg (by simpa using nonempty)]

/-- Bindings without unions in unions stay as they are, after a single pass. -/
theorem Flat.flatten (flat : b.Flat) (distinct : b.names.Nodup) (inhabited : b.Inhabited) :
    b.flatten = .ok (b, 1) := by
  rw [Bindings.flatten, passes, @Flat.pass [] b flat distinct inhabited]
  rfl

end Bindings

/-! ### The grammar again -/

namespace Stages

variable {ds : List Definition} {named flat : Bindings} (stages : Stages ds named flat)
include stages

/-- Once unions are opened the bindings are still ready for it. -/
theorem flat_ready : flat.Ready := by
  obtain ⟨count, flattening⟩ := stages.flattening
  obtain ⟨-, accounted, untagged⟩ := stages.ready.flatten flattening
  exact ⟨stages.flat_nodup, untagged, accounted,
    Bindings.flatten_inhabited flattening stages.nodup_names stages.ready.inhabited⟩

/-- Once unions are opened each has members, none of them twice. -/
theorem flat_trim : flat.Trim := by
  intro p hp texts union
  have found : flat.members? p.1 = some texts := by
    rw [Bindings.members?_eq_some_iff, Bindings.lookup_eq_of_mem stages.flat_nodup hp, union]
  exact ⟨fun none => stages.flat_ready.inhabited p.1 (none ▸ found),
    stages.flat_flat.distinct p.1 texts found⟩

/-- The definitions that the grammar amounts to are accepted, and give the grammar. -/
theorem exists_rebuilt : ∃ ds', (Grammar.ofBindings flat).definitions = .ok ds' ∧
    Grammar.ofDefinitions? ds' =
      ([.converged 1, .built flat.length 0], .ok (Grammar.ofBindings flat)) := by
  have definable : ∀ p ∈ (Grammar.ofBindings flat).types, IsDefinable p.1 := by
    intro p hp
    obtain ⟨q, hq, rfl⟩ := List.mem_map.1 hp
    exact stages.definable q.1 (stages.flat_names ▸ List.mem_map_of_mem hq)
  obtain ⟨ds', made, same⟩ := exists_definitionsOf definable
  have same' : (ds'.map fun d => (d.name, d.type)) = flat.map fun p => (p.1, p.2.toTy) := same
  have names : ds'.map (·.name) = flat.names := by
    rw [← queue_names, same', List.map_map]
    rfl
  have naming : Definition.naming ds' = .ok ([], flat) := by
    rw [Definition.naming, same', extract_texts _ stages.flat_trim]
  have length : ds'.length = flat.length := by
    rw [← List.length_map fun d : Definition => d.name, names, Bindings.names, List.length_map]
  obtain ⟨flat', count, flattened, -, result⟩ :=
    stages.flat_ready.of_founded stages.flat_founded ds'.length
  rw [stages.flat_flat.flatten stages.flat_nodup stages.flat_ready.inhabited] at flattened
  cases flattened
  refine ⟨ds', made, ?_⟩
  rw [Definition.ofDefinitions?_of_ok (names ▸ stages.flat_nodup) naming, result, length,
    Nat.sub_self]
  rfl

end Stages

/-- A grammar whose names are distinct equals itself as a mapping. -/
theorem agrees_ofBindings_self {b : Bindings} (distinct : b.names.Nodup) :
    (Grammar.ofBindings b).agrees (.ofBindings b) = true := by
  rw [Grammar.agrees, Bool.and_eq_true, List.all_eq_true]
  refine ⟨beq_self_eq_true _, fun p hp => ?_⟩
  obtain ⟨q, hq, rfl⟩ := List.mem_map.1 hp
  have found : (Grammar.ofBindings b).get? q.1 = some q.2.toTy := by
    rw [Bindings.get?_ofBindings, Bindings.lookup_eq_of_mem distinct hq]
    rfl
  simp only [found, Option.any_some, beq_self_eq_true]

/-- The definitions that a grammar amounts to, if normalisation has returned it, are accepted again.
Nothing is moved out of them, a single pass opens no union, and the grammar they give binds the same
names in the same order to the same types, with the same items in the same order. So it has the same
canonical form and equals the first as a mapping, and the samplers over the two are the same. -/
theorem ofDefinitions?_idempotent {ds : List Definition} {events : List Event} {g : Grammar}
    (built : Grammar.ofDefinitions? ds = (events, .ok g)) :
    ∃ ds' g', g.definitions = .ok ds' ∧
      Grammar.ofDefinitions? ds' = ([.converged 1, .built g.size 0], .ok g') ∧
      g'.types = g.types ∧ g'.canonical = g.canonical ∧ g'.agrees g = true ∧
      ∀ mode source, Sampler.ofGrammar g' mode source = Sampler.ofGrammar g mode source := by
  obtain ⟨named, flat, stages, rfl⟩ := Grammar.exists_stages built
  obtain ⟨ds', made, rebuilt⟩ := stages.exists_rebuilt
  have size : (Grammar.ofBindings flat).size = flat.length := List.length_map ..
  exact ⟨ds', _, made, by rw [rebuilt, size], rfl, rfl, agrees_ofBindings_self stages.flat_nodup,
    fun _ _ => rfl⟩

/-- The grammar of the pair of a tag and binary trees comes back from its definitions: nothing is
moved out or opened, and its text and its samplers are what they were. -/
theorem ofDefinitions?_idempotent_knotted :
    ∃ ds' g', knottedGrammar.definitions = .ok ds' ∧
      Grammar.ofDefinitions? ds' = ([.converged 1, .built knottedGrammar.size 0], .ok g') ∧
      g'.types = knottedGrammar.types ∧ g'.canonical = knottedGrammar.canonical ∧
      g'.agrees knottedGrammar = true ∧
      ∀ mode source,
        Sampler.ofGrammar g' mode source = Sampler.ofGrammar knottedGrammar mode source :=
  ofDefinitions?_idempotent knotted_built

end TreeGrammar
