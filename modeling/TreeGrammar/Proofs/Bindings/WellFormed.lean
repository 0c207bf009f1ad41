import Mathlib
import TreeGrammar.Proofs.Bindings.Outcome

/-!
# Grammars that normalisation returns

Every stage of normalisation establishes a part of what a grammar has to be, and the later stages
keep it. The names are those given and behind them those handed out, in the order of the log; items
are texts, each a tag or bound; products are as long as they were, each item in its place; unions
have members, none of them twice and none a union; and no chain of aliases goes on for ever.

* `Bindings.flatten_others`: flattening touches unions only.
* `Grammar.WellFormed`: what a grammar has to be, given the definitions and the log.
* `ofDefinitions?_wellFormed`: the grammars that normalisation returns are so.
-/

namespace TreeGrammar

/-! ### What flattening keeps -/

namespace Bindings

variable {b flat : Bindings} {count : Nat}

/-- Flattening touches unions only, and what is a union stays one. -/
theorem flatten_others (h : b.flatten = .ok (flat, count)) (distinct : b.names.Nodup)
    (s : String) : (b.members? s = none → flat.lookup s = b.lookup s) ∧
      (flat.members? s = none ↔ b.members? s = none) := by
  refine passes_rule (I := fun c => (b.members? s = none → c.lookup s = b.lookup s) ∧
    (c.members? s = none ↔ b.members? s = none)) h distinct ?_ ⟨fun _ => rfl, Iff.rfl⟩
  rintro c x items c' hc ⟨same, kinds⟩
  refine ⟨fun none => ?_, hc.members?_eq_none_iff.trans kinds⟩
  have ne : s ≠ x := by
    rintro rfl
    have found := hc.bound
    rw [kinds.2 none] at found
    cases found
  rw [hc.others s ne, same none]

/-- Flattening leaves no union without members. -/
theorem flatten_inhabited (h : b.flatten = .ok (flat, count)) (distinct : b.names.Nodup)
    (inhabited : b.Inhabited) : flat.Inhabited :=
  passes_rule h distinct (fun _ _ _ _ hc all => hc.inhabited all) inhabited

/-- Where every name has a finite base no chain of aliases goes on for ever. -/
theorem wellFounded_of_founded (founded : ∀ s, ¬b.Circular s) :
    WellFounded fun t s => t ∈ b.next s := by
  obtain ⟨r, -, less⟩ := exists_rank (E := fun s t => t ∈ b.next s) (l := b.names)
    (fun _ _ => mem_names_of_next) founded
  exact Subrelation.wf (fun {t s} step => less s t step) (measure r).wf

/-- The members of the unions in the grammar. -/
theorem members_of_get? {s : String} {members : List Ref}
    (found : (Grammar.ofBindings flat).get? s = some (.union members)) :
    ∃ texts : List String, flat.members? s = some texts ∧ members = texts.map .name := by
  rw [Bindings.get?_ofBindings, Option.map_eq_some_iff] at found
  obtain ⟨body, found, same⟩ := found
  cases body with
  | value tag => cases same
  | product items => cases same
  | union texts =>
    cases same
    exact ⟨texts, Bindings.members?_eq_some_iff.2 found, rfl⟩

end Bindings

/-! ### Well-formed grammars -/

/-- What a grammar has to be that normalisation returns for some definitions, when `log` says which
types were moved out of which. -/
structure Grammar.WellFormed (ds : List Definition) (log : List Extraction) (g : Grammar) :
    Prop where
  /-- The names given come first, then those handed out, each in their order. -/
  names : g.names = ds.map (·.name) ++ log.map (·.name)
  distinct : g.names.Nodup
  definable : ∀ s ∈ g.names, IsDefinable s
  /-- Every item is a text, and it is a tag or bound. -/
  items : ∀ s t, g.get? s = some t → ∀ r ∈ t.items,
    ∃ x, r = .name x ∧ (isTag x = true ∨ x ∈ g.names)
  /-- A union has members, none twice and none bound to a union. -/
  unions : ∀ s members, g.get? s = some (.union members) → members ≠ [] ∧ members.Nodup ∧
    ∀ x, .name x ∈ members → ∀ others, g.get? x ≠ some (.union others)
  /-- A value stays what it is, a product keeps its items in their places, and a union stays a
  union, for the types given and for those moved out. -/
  kept : ∀ p, Nested.Met (ds.map fun d => (d.name, d.type)) log p →
    (∀ tag, p.2 = .value tag → g.get? p.1 = some (.value tag)) ∧
    (∀ items, p.2 = .product items → ∃ texts : List String,
      g.get? p.1 = some (.product (texts.map .name)) ∧
        List.Forall₂ (Ref.BecomesIn log p.1) items texts) ∧
    ∀ items, p.2 = .union items → ∃ members, g.get? p.1 = some (.union members)
  /-- No chain from a union to a member and from a product to its only item goes on for ever. -/
  founded : WellFounded fun t s => g.Alias .leaves s t

/-! ### What the stages establish -/

namespace Stages

variable {ds : List Definition} {named flat : Bindings} (stages : Stages ds named flat)
include stages

/-- The names bound are distinct once unions are opened. -/
theorem flat_nodup : flat.names.Nodup :=
  stages.flat_names ▸ stages.nodup_names

/-- Definitions are ready to have their unions opened once nested types have names. -/
theorem ready : named.Ready := by
  obtain ⟨log, naming⟩ := stages.naming
  exact ready_of_naming stages.distinct naming
    (Bindings.accountedBy_of_unbound?_eq_none stages.closed)

/-- No name is an alias for itself once unions are opened, nor was one before. -/
theorem flat_founded (s : String) : ¬flat.Circular s := by
  intro circular
  have acyclic := (Bindings.selfAlias?_eq_none_iff stages.flat_nodup stages.flat_closed).1
    stages.acyclic
  rw [← Bindings.circular_iff_cyclic] at acyclic
  exact acyclic ⟨s, circular⟩

/-- Aliases lead from no name to itself: the last check refuses such a name, and opening unions does
not hide it. -/
theorem founded (s : String) : ¬named.Circular s := by
  intro circular
  obtain ⟨count, flattening⟩ := stages.flattening
  obtain ⟨s', circular'⟩ :=
    (Bindings.flatten_circular_iff stages.nodup_names flattening).2 ⟨s, circular⟩
  exact stages.flat_founded s' circular'

/-- The log of what was done is that of the types moved out, and then says that unions were opened
and the grammar was built. -/
theorem events_eq {events : List Event} {result : Except Failure Grammar} {log : List Extraction}
    {b : Bindings} (built : Grammar.ofDefinitions? ds = (events, result))
    (naming : Definition.naming ds = .ok (log, b)) :
    ∃ passes, events = log.map .extracted ++
      [.converged passes, .built flat.length (flat.length - ds.length)] := by
  obtain ⟨log', naming'⟩ := stages.naming
  obtain ⟨count, flattening⟩ := stages.flattening
  obtain ⟨flat', passes, flattened, -, result⟩ := stages.ready.of_founded stages.founded ds.length
  rw [flattening] at flattened
  cases flattened
  rw [Definition.ofDefinitions?_of_ok stages.distinct naming'] at built
  rw [Definition.naming, naming'] at naming
  cases naming
  rw [result] at built
  exact ⟨count, (Prod.mk.inj built).1.symm⟩

/-- A definition may have any name that is bound. -/
theorem definable (s : String) (bound : s ∈ named.names) : IsDefinable s := by
  obtain ⟨new, names, handedOut⟩ := stages.names
  rw [names] at bound
  rcases List.mem_append.1 bound with given | new
  · obtain ⟨d, -, rfl⟩ := List.mem_map.1 given
    exact d.definable
  · obtain ⟨k, rfl⟩ := handedOut.numbered s new
    exact isDefinable_numbered k

/-- Once unions are opened each has members, none of them twice and none a union. -/
theorem flat_unions {s : String} {members : List Ref}
    (found : (Grammar.ofBindings flat).get? s = some (.union members)) :
    members ≠ [] ∧ members.Nodup ∧ ∀ x, .name x ∈ members → ∀ others,
      (Grammar.ofBindings flat).get? x ≠ some (.union others) := by
  obtain ⟨count, flattening⟩ := stages.flattening
  obtain ⟨texts, bound, rfl⟩ := Bindings.members_of_get? found
  refine ⟨fun none => ?_, ?_, fun x member others found' => ?_⟩
  · rw [List.map_eq_nil_iff.1 none] at bound
    exact Bindings.flatten_inhabited flattening stages.nodup_names stages.ready.inhabited s bound
  · exact (stages.flat_flat.distinct s texts bound).map fun _ _ => Ref.name.inj
  · obtain ⟨texts', bound', -⟩ := Bindings.members_of_get? found'
    obtain ⟨y, hy, same⟩ := List.mem_map.1 member
    cases same
    refine stages.flat_flat.apart s x ⟨texts, bound, hy, ?_⟩
    rw [bound']
    exact Option.some_ne_none texts'

/-- What becomes of a type that is met while nested types are named. -/
theorem kept {log : List Extraction} (naming : Definition.naming ds = .ok (log, named))
    {p : Nested} (met : Nested.Met (ds.map fun d => (d.name, d.type)) log p) :
    (∀ tag, p.2 = .value tag → (Grammar.ofBindings flat).get? p.1 = some (.value tag)) ∧
    (∀ items, p.2 = .product items → ∃ texts : List String,
      (Grammar.ofBindings flat).get? p.1 = some (.product (texts.map .name)) ∧
        List.Forall₂ (Ref.BecomesIn log p.1) items texts) ∧
    ∀ items, p.2 = .union items →
      ∃ members, (Grammar.ofBindings flat).get? p.1 = some (.union members) := by
  obtain ⟨count, flattening⟩ := stages.flattening
  obtain ⟨texts, body, made, member, items⟩ := extract_bodies naming met
  have bound := Bindings.lookup_eq_of_mem stages.nodup_names member
  have others := Bindings.flatten_others flattening stages.nodup_names p.1
  -- opening changes unions only
  have untouched : (∀ texts, body ≠ .union texts) →
      (Grammar.ofBindings flat).get? p.1 = some body.toTy := by
    intro other
    have none : named.members? p.1 = none := by
      rcases found : named.members? p.1 with _ | texts
      · rfl
      · rw [Bindings.members?_eq_some_iff, bound] at found
        exact absurd (Option.some.inj found) (other texts)
    rw [Bindings.get?_ofBindings, others.1 none, bound]
    rfl
  obtain ⟨tag, type, rfl⟩ | ⟨refs, type, rfl⟩ | ⟨refs, type, -, rfl⟩ := withTexts_cases made
  · rw [type]
    refine ⟨fun tag' same => ?_, nofun, nofun⟩
    cases same
    exact untouched nofun
  · rw [type] at items ⊢
    refine ⟨nofun, fun refs' same => ?_, nofun⟩
    cases same
    exact ⟨texts, untouched nofun, items⟩
  · rw [type]
    refine ⟨nofun, nofun, fun refs' same => ?_⟩
    have union : flat.members? p.1 ≠ none := by
      rw [ne_eq, others.2, Bindings.members?_eq_some_iff.2 bound]
      exact Option.some_ne_none _
    obtain ⟨texts', found⟩ := Option.ne_none_iff_exists'.1 union
    exact ⟨texts'.map .name, by
      rw [Bindings.get?_ofBindings, Bindings.members?_eq_some_iff.1 found]
      rfl⟩

end Stages

/-- The grammars that normalisation returns are well-formed. -/
theorem ofDefinitions?_wellFormed {ds : List Definition} {events : List Event} {g : Grammar}
    (built : Grammar.ofDefinitions? ds = (events, .ok g)) :
    ∃ log passes,
      events = log.map .extracted ++ [.converged passes, .built g.size (g.size - ds.length)] ∧
      g.WellFormed ds log := by
  obtain ⟨named, flat, stages, rfl⟩ := Grammar.exists_stages built
  obtain ⟨log, naming⟩ := stages.naming
  obtain ⟨passes, events_eq⟩ := stages.events_eq built naming
  have size : (Grammar.ofBindings flat).size = flat.length := List.length_map ..
  refine ⟨log, passes, by rw [events_eq, size], ?_⟩
  have names : (Grammar.ofBindings flat).names = named.names := by
    rw [Grammar.names_ofBindings, stages.flat_names]
  constructor
  case names =>
    rw [names, (extract_names naming).1, queue_names]
  case distinct => exact names ▸ stages.nodup_names
  case definable => exact fun s bound => stages.definable s (names ▸ bound)
  case items =>
    intro s t found r item
    obtain ⟨x, rfl, tag | ⟨t', bound⟩⟩ := stages.flat_closed.items s t found r item
    · exact ⟨x, rfl, Or.inl tag⟩
    · exact ⟨x, rfl, Or.inr (Grammar.mem_names_of_get? bound)⟩
  case unions => exact fun s members found => stages.flat_unions found
  case kept => exact fun p met => stages.kept naming met
  case founded =>
    rw [Bindings.alias_ofBindings]
    exact Bindings.wellFounded_of_founded stages.flat_founded

/-- The grammar of the pair of a tag and binary trees is well formed: two names are handed out. -/
theorem ofDefinitions?_wellFormed_knotted :
    ∃ log passes,
      (Grammar.ofDefinitions? knottedDefinitions).1 = log.map .extracted ++ [.converged passes,
        .built knottedGrammar.size (knottedGrammar.size - knottedDefinitions.length)] ∧
      knottedGrammar.WellFormed knottedDefinitions log := by
  rw [knotted_built]
  exact ofDefinitions?_wellFormed knotted_built

end TreeGrammar
