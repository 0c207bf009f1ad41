import Mathlib
import TreeGrammar.Proofs.Bindings.Naming
import TreeGrammar.Proofs.Bindings.Opening

/-!
# The stages of normalisation

Definitions that normalisation accepts go through bindings in which all nested types have names, and
through the same bindings with their unions opened. Both bind the same names, and every name has the
same trees in both.

* `Stages`: the bindings that accepted definitions go through.
* `Grammar.exists_stages`: there are such bindings for every grammar that normalisation returns.
* `Stages.binds`, `Stages.yields_iff`, `Stages.flat`: what the stages have to do with one another.
-/

namespace TreeGrammar

/-- The bindings that definitions go through until they are a grammar: `named` once nested types
have names, and `flat` once unions are opened. -/
structure Stages (ds : List Definition) (named flat : Bindings) : Prop where
  distinct : (ds.map (·.name)).Nodup
  naming : ∃ log, extract (FreshNames.ofUsed (ds.map (·.name)) "t_")
    (ds.map fun d => (d.name, d.type)) = .ok (log, named)
  closed : named.unbound? = none
  flattening : ∃ count, named.flatten = .ok (flat, count)
  acyclic : flat.selfAlias? = none

/-- Where no name is reported as repeated none is. -/
theorem nodup_of_firstRepeated {earlier names : List String}
    (none : firstRepeated earlier names = none) :
    names.Nodup ∧ ∀ name ∈ names, name ∉ earlier := by
  induction names generalizing earlier with
  | nil => exact ⟨List.nodup_nil, fun _ h => absurd h List.not_mem_nil⟩
  | cons name rest ih =>
    rw [firstRepeated] at none
    split at none
    · cases none
    · next new =>
      obtain ⟨distinct, apart⟩ := ih none
      refine ⟨List.nodup_cons.2 ⟨fun again => ?_, distinct⟩, fun name' h => ?_⟩
      · exact apart name again List.mem_cons_self
      · rcases List.mem_cons.1 h with rfl | h
        · exact new
        · exact fun before => apart name' h (List.mem_cons_of_mem _ before)

/-- A grammar that normalisation returns has come through all stages. -/
theorem Grammar.exists_stages {ds : List Definition} {events : List Event} {g : Grammar}
    (built : ofDefinitions? ds = (events, .ok g)) :
    ∃ named flat, Stages ds named flat ∧ g = ofBindings flat := by
  rw [ofDefinitions?] at built
  simp only at built
  split at built
  · cases built
  · next none =>
    split at built
    · cases built
    · next log named naming =>
      have result := (Prod.mk.inj built).2
      rw [ofBindings?] at result
      split at result
      · cases result
      · next closed =>
        split at result
        · cases result
        · next flat count flattening =>
          split at result
          · cases result
          · next acyclic =>
            cases result
            exact ⟨named, flat, ⟨(nodup_of_firstRepeated none).1, ⟨log, naming⟩, closed,
              ⟨count, flattening⟩, acyclic⟩, rfl⟩

/-- The names that are to be bound first are those of the definitions. -/
theorem queue_names (ds : List Definition) :
    (ds.map fun d => (d.name, d.type)).map (·.1) = ds.map (·.name) := by
  rw [List.map_map]
  rfl

/-- Definitions may be queued if they have different names. -/
theorem Definition.queued {ds : List Definition} (distinct : (ds.map (·.name)).Nodup) :
    Nested.Queued (FreshNames.ofUsed (ds.map (·.name)) "t_")
      (ds.map fun d => (d.name, d.type)) := by
  refine ⟨?_, fun x hx => List.mem_eraseDups.2 ?_⟩
  · rwa [queue_names]
  · rwa [queue_names] at hx

section

variable {ds : List Definition} {log : List Extraction} {b : Bindings}
  (naming : extract (FreshNames.ofUsed (ds.map (·.name)) "t_")
    (ds.map fun d => (d.name, d.type)) = .ok (log, b))
include naming

/-- Names given and names handed out are distinct. -/
theorem nodup_of_definitions (distinct : (ds.map (·.name)).Nodup) : b.names.Nodup :=
  Bindings.names_nodup_of_extract naming (Definition.queued distinct)

/-- The names bound are those of the definitions, and behind them those of the log. -/
theorem names_of_definitions : b.names = ds.map (·.name) ++ log.map (·.name) := by
  rw [(extract_names naming).1, queue_names]

/-- A name that was handed out is that of no definition. -/
theorem notMem_of_logged {x : String} (logged : x ∈ log.map (·.name)) : x ∉ ds.map (·.name) :=
  fun given => (extract_names naming).2.new x logged (List.mem_eraseDups.2 given)

end

namespace Stages

variable {ds : List Definition} {named flat : Bindings} (stages : Stages ds named flat)
include stages

/-- The names bound are those of the definitions, and behind them names that were handed out. -/
theorem names : ∃ new, named.names = ds.map (·.name) ++ new ∧
    HandedOut (FreshNames.ofUsed (ds.map (·.name)) "t_") new := by
  obtain ⟨log, naming⟩ := stages.naming
  exact ⟨_, names_of_definitions naming, (extract_names naming).2⟩

/-- The names bound are distinct once nested types have names. -/
theorem nodup_names : named.names.Nodup := by
  obtain ⟨log, naming⟩ := stages.naming
  exact nodup_of_definitions naming stages.distinct

/-- No name bound is a tag once nested types have names. -/
theorem untagged : Untagged named := by
  obtain ⟨log, naming⟩ := stages.naming
  exact untagged_of_definitions naming

/-- A tag is not found once nested types have names. -/
theorem lookup_tag {s : String} (tag : isTag s = true) : named.lookup s = none :=
  Bindings.lookup_tag_of_untagged stages.untagged tag

/-- Every definition is bound to its type. -/
theorem binds {d : Definition} (member : d ∈ ds) :
    named.Binds (ds.map (·.name)) d.name d.type := by
  obtain ⟨log, naming⟩ := stages.naming
  exact extract_binds naming (fun _ _ found => found) (Definition.queued stages.distinct)
    (fun x hx => List.mem_eraseDups.2 hx) (d.name, d.type) (List.mem_map_of_mem member)

/-- Every name has the same trees once unions are opened. -/
theorem yields_iff (s : String) (t : Tree) : flat.Yields s t ↔ named.Yields s t := by
  obtain ⟨count, flattening⟩ := stages.flattening
  exact Bindings.flatten_yields_iff flattening stages.nodup_names (fun _ => stages.lookup_tag) s t

/-- Opening unions binds the same names in the same order. -/
theorem flat_names : flat.names = named.names := by
  obtain ⟨count, flattening⟩ := stages.flattening
  exact (Bindings.flatten_accounted flattening
    (Bindings.accountedBy_of_unbound?_eq_none stages.closed)).1

/-- Nothing is missing from the grammar once unions are opened. -/
theorem flat_closed : (Grammar.ofBindings flat).Closed := by
  obtain ⟨count, flattening⟩ := stages.flattening
  have accounted := (Bindings.flatten_accounted flattening
    (Bindings.accountedBy_of_unbound?_eq_none stages.closed)).2
  rw [← stages.flat_names] at accounted
  exact Bindings.closed_ofBindings (stages.untagged.of_names stages.flat_names) accounted

/-- No member of a union is a union, and none is repeated. -/
theorem flat_flat : flat.Flat := by
  obtain ⟨count, flattening⟩ := stages.flattening
  refine Bindings.flatten_flat flattening stages.nodup_names fun s cycle => ?_
  refine Bindings.not_cyclic_of_selfAlias?_eq_none stages.flat_closed stages.acyclic ⟨s, ?_⟩
  rw [Bindings.alias_ofBindings]
  have le : flat.Nests ≤ fun s t => t ∈ flat.next s := fun _ _ => Bindings.Nests.next
  exact Relation.TransGen.mono le s s cycle

end Stages

end TreeGrammar
