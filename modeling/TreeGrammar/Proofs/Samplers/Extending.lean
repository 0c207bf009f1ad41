import Mathlib
import TreeGrammar.Proofs.Samplers.Spelling

/-!
# Definitions behind others

Where definitions refer to the names they give, and to those that their binders receive, they mean
the same whatever is defined behind them. Names handed out to their nested types may be others,
since more names are given and more types are nested; the bodies are the same under these names, in
the same order, and so are the counts and the draws.

* `Definition.exists_embeds_append`: what is named without the others is found in what is named with
  them.
* `ofDefinitions?_append`: the grammar is in that of the longer list, and the names it gives are the
  same there.
-/

namespace TreeGrammar

section

variable {defs : List (String × Expr)} {ds es : List Definition}
  (literals : ∀ s ∈ Expr.literalsAll (defs.map (·.2)), isTag s = true ∨ s ∈ defs.map (·.1))
  (made : Definition.makeAll defs = .ok ds)
include literals made

/-- What is named without the later definitions is found in what is named with them. Names given
are themselves there, and a name that was handed out is one that was handed out. -/
theorem Definition.exists_embeds_append (distinct : ((ds ++ es).map (·.name)).Nodup)
    {log log' : List Extraction} {b b' : Bindings} (named : naming ds = .ok (log, b))
    (named' : naming (ds ++ es) = .ok (log', b')) :
    ∃ σ : Equiv.Perm String, b.Embeds σ b' ∧ (∀ s ∈ ds.map (·.name), σ s = s) ∧
      ∀ s ∈ b.names, s ∉ ds.map (·.name) → σ s ∉ (ds ++ es).map (·.name) := by
  have pairing := (Respelling.refl literals made).pairing made
  rw [← names_of_makeAll made] at pairing
  have names : (ds ++ es).map (·.name) = ds.map (·.name) ++ es.map (·.name) := List.map_append
  have given : ∀ s ∈ ds.map (·.name), s ∈ (ds ++ es).map (·.name) := fun s hs =>
    names ▸ List.mem_append_left _ hs
  have distinct₁ : (ds.map (·.name)).Nodup := (List.nodup_append.1 (names ▸ distinct)).1
  obtain ⟨inner, laid, all⟩ := exists_inner distinct₁ named
  obtain ⟨inner', laid', all'⟩ := exists_inner distinct named'
  have corresponds : ∀ s ∈ ds.map (·.name), Bindings.Corresponds
      (spellings id (ds.map (·.name))) (inner s) (inner' s)
      fun σ => ∀ y ∈ s :: inner s, b.FoundAs b' σ y := by
    intro s hs
    obtain ⟨d, hd, rfl⟩ := List.mem_map.1 hs
    obtain ⟨laid, new⟩ := laid d hd
    obtain ⟨laid', new'⟩ := laid' d (List.mem_append_left _ hd)
    refine laid.corresponds laid' (alike_self literals made hd) pairing
      (List.mem_map_of_mem hs) ?_ ?_
    · rwa [spellings_left]
    · rw [spellings_right, List.map_id]
      exact ⟨new'.distinct, fun y hy => mt (given y) (new'.apart y hy), new'.definable⟩
  have part : ((ds.map (·.name)).flatMap fun s => id s :: inner' s).Subperm b'.names := by
    rw [names, List.flatMap_append] at all'
    exact (List.sublist_append_left _ _).subperm.trans all'.symm.subperm
  obtain ⟨σ, embeds, each⟩ := Bindings.exists_embeds all part (nodup_of_definitions named distinct₁)
    (nodup_of_definitions named' distinct) (untagged_of_definitions named)
    (untagged_of_definitions named') corresponds
  refine ⟨σ, embeds, fun s hs => (each s hs).1, fun s bound new => ?_⟩
  obtain ⟨n, hn, hs⟩ := List.mem_flatMap.1 (all.mem_iff.1 bound)
  obtain ⟨d, hd, rfl⟩ := List.mem_map.1 hn
  rcases List.mem_cons.1 hs with rfl | hs
  · exact absurd hn new
  · have inside : σ s ∈ inner' d.name := (each d.name hn).2 ▸ List.mem_map_of_mem hs
    exact (laid' d (List.mem_append_left _ hd)).2.apart _ inside

end

/-- A grammar is in that of a longer list of definitions, if what is defined first refers to nothing
that comes later. The names that were given are themselves there, so that counts of them are the
same, and on one source they ask for the same totals and grow the same trees; in these, what was
handed out becomes something that was handed out. -/
theorem ofDefinitions?_append {defs : List (String × Expr)} {ds es : List Definition}
    {events events' : List Event} {g g' : Grammar}
    (literals : ∀ s ∈ Expr.literalsAll (defs.map (·.2)), isTag s = true ∨ s ∈ defs.map (·.1))
    (made : Definition.makeAll defs = .ok ds)
    (built : Grammar.ofDefinitions? ds = (events, .ok g))
    (built' : Grammar.ofDefinitions? (ds ++ es) = (events', .ok g')) :
    ∃ ρ, g.Within ρ g' ∧ (∀ s ∈ ds.map (·.name), ρ s = s) ∧
      (∀ s ∈ g.names, s ∉ ds.map (·.name) → ρ s ∉ (ds ++ es).map (·.name)) ∧
      ∀ name ∈ ds.map (·.name), ∀ mode (s s' : Sampler), s.Reachable g mode →
        s'.Reachable g' mode → ∀ n : Int, (s'.count name n).1 = (s.count name n).1 ∧
          (s'.source = s.source → (s'.generate name n).totals = (s.generate name n).totals ∧
            (s'.generate name n).result = (s.generate name n).result.map (Sample.rename ρ)) := by
  obtain ⟨named, flat, stages, rfl⟩ := Grammar.exists_stages built
  obtain ⟨named', flat', stages', rfl⟩ := Grammar.exists_stages built'
  obtain ⟨log, naming⟩ := stages.naming
  obtain ⟨log', naming'⟩ := stages'.naming
  obtain ⟨count, flattening⟩ := stages.flattening
  obtain ⟨count', flattening'⟩ := stages'.flattening
  obtain ⟨σ, embeds, given, new⟩ :=
    Definition.exists_embeds_append literals made stages'.distinct naming naming'
  have within : (Grammar.ofBindings flat).Within σ (Grammar.ofBindings flat') :=
    (embeds.flatten stages.ready stages'.ready stages'.founded flattening flattening').within
      (Grammar.ofDefinitions?_normal built) (Grammar.ofDefinitions?_normal built')
  rw [← stages.flat_names, ← Grammar.names_ofBindings] at new
  refine ⟨σ, within, given, new, fun name hname mode s s' reachable reachable' n => ?_⟩
  have bound : name ∈ (Grammar.ofBindings flat).names := by
    obtain ⟨handed, names, -⟩ := stages.names
    rw [Grammar.names_ofBindings, stages.flat_names, names]
    exact List.mem_append_left _ hname
  have counts := within.counts mode s s' reachable reachable' name bound n
  have trees := within.trees mode s s' reachable reachable'
  rw [given name hname] at counts
  refine ⟨counts, fun source => ?_⟩
  have trees := trees source name bound n
  rwa [given name hname] at trees

/-- A definition that is put behind the pair. It is named as the trees in the pair were, and it
refers to the pair and to the name that the trees get instead. -/
def trailing : List Definition :=
  [⟨"t_0", .union [.name "K", .inline (.product [.name "t_1", .name "t_0"])], by decide, by decide⟩]

/-- The grammar of both, in which names are handed out to the pair and to what trails it in turn. -/
def trailedGrammar : Grammar :=
  .ofBindings [("K", .product ["t_1", "v_y"]), ("t_0", .union ["K", "t_2"]),
    ("t_1", .union ["v_x", "t_3"]), ("t_2", .product ["t_1", "t_0"]),
    ("t_3", .product ["t_1", "t_1"])]

/-- The definitions of both are accepted. -/
theorem trailed_built :
    (Grammar.ofDefinitions? (knottedDefinitions ++ trailing)).2 = .ok trailedGrammar := by
  cbv

/-- The grammar of the pair is in the grammar of both. The pair keeps its name, and the trees in it,
whose name is given to something else now, get another one. -/
theorem ofDefinitions?_append_trailing :
    ∃ ρ, knottedGrammar.Within ρ trailedGrammar ∧ ρ "K" = "K" ∧ ρ "t_0" ≠ "t_0" := by
  obtain ⟨ρ, within, given, new, -⟩ := ofDefinitions?_append
    (by simp [knotted, Expr.literalsAll, Expr.literals, isTag]) knotted_made knotted_built
    (Prod.ext rfl trailed_built)
  refine ⟨ρ, within, given "K" (by decide), fun same => ?_⟩
  exact new "t_0" (by decide) (by decide) (by rw [same]; decide)

end TreeGrammar
