import TreeGrammar.Proofs.Reading.Meaning

/-!
# Normalisation keeps what was written

The definitions that are made of expressions are bound to what the expressions are read as, and
normalisation gives names to all types nested in them and opens their unions. The trees of a name in
the grammar that comes out are, but for the names of nodes that are not the author's own, the trees
of the expressions read directly.

* `makeAll_cases`: what definitions are made of.
* `Stages.defines`: every name is bound to its expression once nested types have names.
* `derives_iff_reads`: the trees of the grammar are those read directly, with their sizes.
* `knotted`: a definition with a binder.
-/

namespace TreeGrammar

/-- A definition has the name it is made for and the type that its body gives for it. -/
theorem make_cases {name : String} {body : Operand} {d : Definition}
    (h : Definition.make (.text name) body = .ok d) :
    d.name = name ∧ body.bindTo name = .ok (.ref (.inline d.type)) := by
  rw [Definition.make] at h
  split at h
  · cases h
  · split at h
    · cases h
    · split at h
      · cases h
      · next t bound =>
        cases h
        exact ⟨rfl, bound⟩
      · cases h

/-- A name that may be defined is bound to the type that its body stands for. -/
theorem make_of_bindTo {name : String} (definable : IsDefinable name) {body : Operand} {t : Ty}
    (bound : body.bindTo name = .ok (.ref (.inline t))) :
    Definition.make (.text name) body = .ok ⟨name, t, definable⟩ := by
  rw [Definition.make, dif_neg definable.1]
  split
  · next tag =>
    rw [definable.2] at tag
    cases tag
  · simp only [bound]

/-- A definition has the name that stands before its expression, and the type that the expression is
read as for that name. -/
theorem makeAll_cases {defs : List (String × Expr)} {ds : List Definition}
    (h : Definition.makeAll defs = .ok ds) :
    List.Forall₂ (fun p d => d.name = p.1 ∧ p.2.bindTo p.1 [] = .ok (.ref (.inline d.type)))
      defs ds := by
  induction defs generalizing ds with
  | nil =>
    rw [Definition.makeAll] at h
    cases h
    exact .nil
  | cons p rest ih =>
    obtain ⟨name, e⟩ := p
    rw [Definition.makeAll] at h
    split at h
    · cases h
    · next body read =>
      split at h
      · cases h
      · next d made =>
        split at h
        · cases h
        · next ds' others =>
          cases h
          obtain ⟨named, bound⟩ := make_cases made
          refine .cons ⟨named, ?_⟩ (ih others)
          rw [Expr.bindTo_eq, read]
          exact bound

/-- Definitions have the names they are made for, in their order. -/
theorem names_of_makeAll {defs : List (String × Expr)} {ds : List Definition}
    (h : Definition.makeAll defs = .ok ds) : ds.map (·.name) = defs.map (·.1) := by
  have made := makeAll_cases h
  clear h
  induction made with
  | nil => rfl
  | cons first _ ih => rw [List.map_cons, List.map_cons, first.1, ih]

section

variable {defs : List (String × Expr)} {ds : List Definition} {named flat : Bindings}

/-- Once nested types have names every name is bound to its expression. -/
theorem Stages.defines (stages : Stages ds named flat) (made : Definition.makeAll defs = .ok ds)
    (apart : LabelsApart (Expr.bindersAll (defs.map (·.2)))) {known : String → Prop}
    (tags : ∀ s, isTag s = true → known s)
    (literals : ∀ s ∈ Expr.literalsAll (defs.map (·.2)), known s) :
    ∀ p ∈ defs, named.Defines (defs.map (·.1)) known [] p.2 p.1 := by
  intro p hp
  obtain ⟨d, hd, name, bound⟩ := exists_of_forall₂_left (makeAll_cases made) p hp
  have binds := stages.binds hd
  rw [names_of_makeAll made, name] at binds
  have member : p.2 ∈ defs.map (·.2) := List.mem_map_of_mem hp
  have allowed : p.2.Allowed (Expr.bindersAll (defs.map (·.2))) known :=
    ⟨fun q hq => Expr.mem_bindersAll.2 ⟨p.2, member, hq⟩,
      fun s hs => literals s (Expr.mem_literalsAll.2 ⟨p.2, member, hs⟩)⟩
  exact defines_of_binds apart tags p.2 allowed bound
    (Expr.from_bindTo p.2 allowed.binders bound) rfl binds

/-- If all that is written as a reference is known, the bindings realise the definitions. -/
theorem Stages.realises (stages : Stages ds named flat) (made : Definition.makeAll defs = .ok ds)
    (apart : LabelsApart (Expr.bindersAll (defs.map (·.2))))
    (literals : ∀ s ∈ Expr.literalsAll (defs.map (·.2)), Known defs s) : Realises defs named := by
  refine ⟨fun s given => ?_, fun s => stages.lookup_tag⟩
  obtain ⟨e, found⟩ := exists_lookup_of_mem given
  have member : (s, e) ∈ defs := mem_of_lookup found
  exact ⟨e, found, stages.defines made apart (fun _ => Or.inl) literals (s, e) member⟩

end

/-- Definitions are made of expressions, in which no two binders share a label and every text
written as a reference is a tag or the name of a definition, and normalisation returns a grammar for
them. Then the trees that the grammar derives for the name of a definition, with the names of all
nodes erased that are no names of definitions, are the trees of the expressions read directly, and
so they are for each size, whatever counts as size. -/
theorem derives_iff_reads {defs : List (String × Expr)} {ds : List Definition}
    {events : List Event} {g : Grammar} (made : Definition.makeAll defs = .ok ds)
    (built : Grammar.ofDefinitions? ds = (events, .ok g))
    (apart : LabelsApart (Expr.bindersAll (defs.map (·.2))))
    (literals : ∀ s ∈ Expr.literalsAll (defs.map (·.2)), isTag s = true ∨ s ∈ defs.map (·.1))
    {name : String} (given : name ∈ defs.map (·.1)) :
    Tree.anonymise (defs.map (·.1)) '' {t | ∃ d, g.Derives (.name name) d ∧ d.tree = t} =
      Reads.trees defs name ∧
    ∀ (mode : Accounting) (n : Nat),
      Tree.anonymise (defs.map (·.1)) ''
          {t | (∃ d, g.Derives (.name name) d ∧ d.tree = t) ∧ t.size mode = n} =
        {t | t ∈ Reads.trees defs name ∧ t.size mode = n} := by
  obtain ⟨named, flat, stages, rfl⟩ := Grammar.exists_stages built
  have realises := stages.realises made apart literals
  have derives : ∀ t, (∃ d, (Grammar.ofBindings flat).Derives (.name name) d ∧ d.tree = t) ↔
      named.Yields name t := by
    intro t
    rw [← Bindings.yields_iff, stages.yields_iff]
  have sound : ∀ t, named.Yields name t → t.anonymise (defs.map (·.1)) ∈ Reads.trees defs name :=
    fun t yields => realises.readAs yields (.defined name) (.defined given)
  have complete : ∀ t ∈ Reads.trees defs name,
      ∃ u, named.Yields name u ∧ u.anonymise (defs.map (·.1)) = t := fun t reads =>
    realises.exists_yields reads .nil (.defined given) (Or.inl (.name (Or.inr given)))
  simp only [derives]
  refine ⟨Set.ext fun t => ⟨?_, complete t⟩, fun mode n => Set.ext fun t => ⟨?_, ?_⟩⟩
  · rintro ⟨u, yields, rfl⟩
    exact sound u yields
  · rintro ⟨u, ⟨yields, size⟩, rfl⟩
    exact ⟨sound u yields, (u.size_anonymise _ mode).trans size⟩
  · rintro ⟨reads, size⟩
    obtain ⟨u, yields, rfl⟩ := complete t reads
    exact ⟨u, ⟨yields, (u.size_anonymise _ mode).symm.trans size⟩, rfl⟩

/-- A pair of a tag and binary trees that are written in place, by a binder. -/
def knotted : List (String × Expr) :=
  [("K", .product [.mu 0 (.union [.name "v_x", .product [.var 0, .var 0]]), .name "v_y"])]

/-- The definition, in which the binder still awaits the name of the trees. -/
def knottedDefinitions : List Definition :=
  [⟨"K", .product [.deferred (.written 0 [] (.union [.name "v_x", .product [.var 0, .var 0]])),
    .name "v_y"], by decide⟩]

/-- The grammar, in which the trees and the pairs of trees have got names. -/
def knottedGrammar : Grammar :=
  .ofBindings [("K", .product ["t_0", "v_y"]), ("t_0", .union ["v_x", "t_1"]),
    ("t_1", .product ["t_0", "t_0"])]

/-- The expressions are read as the definition. -/
theorem knotted_made : Definition.makeAll knotted = .ok knottedDefinitions := by
  cbv

/-- The definition is accepted, and the trees and the pairs of trees get names. -/
theorem knotted_built :
    Grammar.ofDefinitions? knottedDefinitions =
      ([.extracted ⟨"t_0", .union [.name "v_x", .inline (.product [.name "t_0", .name "t_0"])],
          "K"⟩,
        .extracted ⟨"t_1", .product [.name "t_0", .name "t_0"], "t_0"⟩, .converged 1, .built 3 2],
        .ok knottedGrammar) := by
  cbv

/-- The pairs of the grammar, with the names that were handed out erased, are the pairs that are
read directly, and the same is so at every size. -/
theorem derives_iff_reads_knotted :
    Tree.anonymise ["K"] '' {t | ∃ d, knottedGrammar.Derives (.name "K") d ∧ d.tree = t} =
        Reads.trees knotted "K" ∧
      ∀ (mode : Accounting) (n : Nat),
        Tree.anonymise ["K"] ''
            {t | (∃ d, knottedGrammar.Derives (.name "K") d ∧ d.tree = t) ∧ t.size mode = n} =
          {t | t ∈ Reads.trees knotted "K" ∧ t.size mode = n} :=
  derives_iff_reads knotted_made knotted_built
    (by simp [LabelsApart, knotted, Expr.bindersAll, Expr.binders])
    (by simp [knotted, Expr.literalsAll, Expr.literals, isTag]) (by decide)

end TreeGrammar
