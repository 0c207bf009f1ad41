import Mathlib
import TreeGrammar.Proofs.Reading.Rewriting
import TreeGrammar.Proofs.Samplers.Renaming

/-!
# Spelling and order do not matter

Definitions that are written in another order, with other spellings of the names they give, are
refused for a reason of the same kind, or they come to a grammar that differs in names only. Neither
the names that were handed out, nor the order in which unions are opened, nor that in which forms
are sorted leaks into the bodies, the counts or the draws.

* `Failure.SameKind`: failures of one kind.
* `Grammar.Within`: a grammar in another, under other names.
* `Grammar.Renamed`: a grammar and the same under other names.
* `ofDefinitions?_respelled`: what comes of definitions in two spellings.
* `braided`: definitions for which the names handed out depend on both.
-/

namespace TreeGrammar

/-- Failures of one kind, whatever they report. -/
inductive Failure.SameKind : Failure → Failure → Prop
  | construction (why why' : Complaint) : SameKind (.construction why) (.construction why')
  | duplicateName (name name' : String) : SameKind (.duplicateName name) (.duplicateName name')
  | noFiniteBase (name name' : String) (reason reason' : CycleReason) :
      SameKind (.noFiniteBase name reason) (.noFiniteBase name' reason')
  | emptyExpansion (name name' : String) : SameKind (.emptyExpansion name) (.emptyExpansion name')
  | undefinedName (name name' : String) (owner owner' : Option String) :
      SameKind (.undefinedName name owner) (.undefinedName name' owner')
  | inconsistent (why why' : Inconsistency) : SameKind (.inconsistent why) (.inconsistent why')
  | badValue (why why' : BadValue) : SameKind (.badValue why) (.badValue why')

/-- A grammar `g'` has the grammar `g` in it, under other names. What `g` binds has corresponding
items in one order there, and whatever two samplers were asked before they count as many trees of
it; on one source, they ask for the same totals and what is grown differs in names only. -/
structure Grammar.Within (ρ : String → String) (g g' : Grammar) : Prop where
  names : Set.MapsTo ρ {s | s ∈ g.names} {s | s ∈ g'.names}
  injective : Set.InjOn ρ {s | s ∈ g.names}
  bodies : ∀ s ∈ g.names, ∃ body : Body,
    g.get? s = some body.toTy ∧ g'.get? (ρ s) = some (body.rename (respellText ρ)).toTy
  counts : ∀ mode (s s' : Sampler), s.Reachable g mode → s'.Reachable g' mode →
    ∀ name ∈ g.names, ∀ n : Int, (s'.count (ρ name) n).1 = (s.count name n).1
  trees : ∀ mode (s s' : Sampler), s.Reachable g mode → s'.Reachable g' mode →
    s'.source = s.source → ∀ name ∈ g.names, ∀ n : Int,
      (s'.generate (ρ name) n).totals = (s.generate name n).totals ∧
      (s'.generate (ρ name) n).result = (s.generate name n).result.map (Sample.rename ρ)

/-- A grammar `g'` is the grammar `g` under other names. Bodies have corresponding items in one
order, and whatever two samplers were asked before they count as many trees; on one source, they
ask for the same totals and what is grown differs in names only. -/
structure Grammar.Renamed (ρ : String → String) (g g' : Grammar) : Prop where
  names : Set.BijOn ρ {s | s ∈ g.names} {s | s ∈ g'.names}
  bodies : ∀ s ∈ g.names, ∃ body : Body,
    g.get? s = some body.toTy ∧ g'.get? (ρ s) = some (body.rename (respellText ρ)).toTy
  counts : ∀ mode (s s' : Sampler), s.Reachable g mode → s'.Reachable g' mode →
    ∀ name ∈ g.names, ∀ n : Int, (s'.count (ρ name) n).1 = (s.count name n).1
  trees : ∀ mode (s s' : Sampler), s.Reachable g mode → s'.Reachable g' mode →
    s'.source = s.source → ∀ name ∈ g.names, ∀ n : Int,
      (s'.generate (ρ name) n).totals = (s.generate name n).totals ∧
      (s'.generate (ρ name) n).result = (s.generate name n).result.map (Sample.rename ρ)

/-- Two outcomes are failures of one kind, or a grammar and the same under other names, among which
the given names have those that `f` says. -/
def SameOutcome (f : String → String) (given : List String) (x y : Except Failure Grammar) : Prop :=
  (∃ e e', x = .error e ∧ y = .error e' ∧ e.SameKind e') ∨
    ∃ g g' ρ, x = .ok g ∧ y = .ok g' ∧ (∀ s ∈ given, ρ s = f s) ∧ g.Renamed ρ g'

/-- Where bindings are found in others, their grammar is in that of the others. -/
theorem Bindings.Embeds.within {σ : Equiv.Perm String} {b b' : Bindings} (h : b.Embeds σ b')
    (normal : (Grammar.ofBindings b).Normal) (normal' : (Grammar.ofBindings b').Normal) :
    (Grammar.ofBindings b).Within σ (Grammar.ofBindings b') := by
  have accounts : ∀ name ∈ (Grammar.ofBindings b).names,
      (Grammar.ofBindings b).Accounts (.name name) := fun name bound =>
    Grammar.accounts_of_known (Or.inr bound)
  have text : respellText σ = σ := by
    funext s
    rw [respellText]
    split
    · next tag => exact (h.tags s tag).symm
    · rfl
  refine ⟨?_, σ.injective.injOn, fun s bound => ?_,
    fun mode s s' reachable reachable' name bound n => ?_,
    fun mode s s' reachable reachable' source name bound n => ?_⟩
  · rw [Grammar.names_ofBindings, Grammar.names_ofBindings]
    exact fun s bound => h.mem_names bound
  · rw [Grammar.names_ofBindings] at bound
    obtain ⟨body, found⟩ := Bindings.exists_lookup_of_mem_names bound
    refine ⟨body, ?_, ?_⟩
    · rw [get?_ofBindings, found]
      rfl
    · rw [get?_ofBindings, h.bodies s body found, text]
      rfl
  · exact h.count_eq normal normal' reachable.sound reachable'.sound (accounts name bound) n
  · exact h.generate_eq normal normal' reachable.sound reachable'.sound source
      (accounts name bound) n

/-- Grammars of bindings, one of which is found in the other, are one grammar under other names if
no other name is bound. -/
theorem Bindings.Embeds.renamed {σ : Equiv.Perm String} {b b' : Bindings} (h : b.Embeds σ b')
    (only : ∀ s, σ s ∈ b'.names → s ∈ b.names) (normal : (Grammar.ofBindings b).Normal)
    (normal' : (Grammar.ofBindings b').Normal) :
    (Grammar.ofBindings b).Renamed σ (Grammar.ofBindings b') := by
  have within := h.within normal normal'
  refine ⟨⟨within.names, within.injective, fun s' bound => ?_⟩, within.bodies, within.counts,
    within.trees⟩
  rw [Grammar.names_ofBindings] at bound ⊢
  exact ⟨σ.symm s', only _ (by rwa [σ.apply_symm_apply]), σ.apply_symm_apply s'⟩

namespace Respelling

variable {f : String → String} {defs defs' : List (String × Expr)} {ds ds' : List Definition}
  (h : Respelling f defs defs') (made : Definition.makeAll defs = .ok ds)
  (made' : Definition.makeAll defs' = .ok ds')
include h made made'

/-- Where naming fails in one spelling it does so in the other. -/
theorem exists_naming_error (distinct : (defs.map (·.1)).Nodup)
    {failed : List Extraction × Failure} (named : Definition.naming ds = .error failed) :
    ∃ failed', Definition.naming ds' = .error failed' := by
  rcases named' : Definition.naming ds' with failed' | ⟨log', b'⟩
  · exact ⟨failed', rfl⟩
  · obtain ⟨g, back⟩ := h.symm made
    obtain ⟨log, b, named''⟩ := back.exists_naming made' made (h.nodup_iff.2 distinct) named'
    rw [named] at named''
    cases named''

/-- Where naming ends with bindings in both spellings, the outcome is the same. -/
theorem sameOutcome_of_named (distinct : (defs.map (·.1)).Nodup) {log log' : List Extraction}
    {b b' : Bindings} (named : Definition.naming ds = .ok (log, b))
    (named' : Definition.naming ds' = .ok (log', b')) :
    SameOutcome f (defs.map (·.1)) (Grammar.ofDefinitions? ds).2
      (Grammar.ofDefinitions? ds').2 := by
  obtain ⟨σ, embeds, only, given⟩ := h.exists_embeds made made' distinct named named'
  have distinct' := h.nodup_iff.2 distinct
  rw [← names_of_makeAll made] at distinct
  rw [← names_of_makeAll made'] at distinct'
  have outcome := Definition.outcome (Definition.written_of_makeAll made)
  have outcome' := Definition.outcome (Definition.written_of_makeAll made')
  have embeds' := embeds.symm only
  have only' : ∀ s, σ.symm s ∈ b.names → s ∈ b'.names := fun s bound => by
    simpa using embeds.mem_names bound
  by_cases accounted : b.AccountedBy b.names
  · have accounted' := embeds.accountedBy only (nodup_of_definitions named' distinct') accounted
    by_cases founded : ∀ s, ¬b.Circular s
    · have founded' : ∀ s, ¬b'.Circular s := fun s circular => founded _ (embeds'.circular circular)
      have ready := ready_of_naming distinct named accounted
      have ready' := ready_of_naming distinct' named' accounted'
      obtain ⟨flat, count, result, -, built⟩ := ready.of_founded founded ds.length
      obtain ⟨flat', count', result', -, built'⟩ := ready'.of_founded founded' ds'.length
      refine Or.inr ⟨.ofBindings flat, .ofBindings flat', σ, ?_, ?_, given, ?_⟩
      · rw [Definition.ofDefinitions?_of_ok distinct named, built]
      · rw [Definition.ofDefinitions?_of_ok distinct' named', built']
      · refine (embeds.flatten ready ready' founded' result result').renamed (fun s bound => ?_)
          (Grammar.ofBindings?_normal ready.untagged built)
          (Grammar.ofBindings?_normal ready'.untagged built')
        rw [(ready.flatten result).1]
        exact only s ((ready'.flatten result').1 ▸ bound)
    · obtain ⟨s, circular⟩ := not_forall_not.1 founded
      obtain ⟨name, reason, -, reported⟩ :=
        outcome.endless distinct log b named accounted s circular
      obtain ⟨name', reason', -, reported'⟩ :=
        outcome'.endless distinct' log' b' named' accounted' _ (embeds.circular circular)
      exact Or.inl ⟨_, _, reported, reported', .noFiniteBase _ _ _ _⟩
  · have accounted' : ¬b'.AccountedBy b'.names := fun accounted' =>
      accounted (embeds'.accountedBy only' (nodup_of_definitions named distinct) accounted')
    obtain ⟨item, owner, -, reported⟩ := outcome.unbound distinct log b named accounted
    obtain ⟨item', owner', -, reported'⟩ := outcome'.unbound distinct' log' b' named' accounted'
    exact Or.inl ⟨_, _, reported, reported', .undefinedName _ _ _ _⟩

end Respelling

/-- Definitions that are written in another order, with other spellings of the names they give, can
be made as well, and have the same outcome: both are refused for a reason of one kind, or both come
to one grammar under other names. -/
theorem ofDefinitions?_respelled {f : String → String} {defs defs' : List (String × Expr)}
    {ds : List Definition} (h : Respelling f defs defs')
    (made : Definition.makeAll defs = .ok ds) :
    ∃ ds', Definition.makeAll defs' = .ok ds' ∧ SameOutcome f (defs.map (·.1))
      (Grammar.ofDefinitions? ds).2 (Grammar.ofDefinitions? ds').2 := by
  obtain ⟨ds', made'⟩ := h.exists_makeAll made
  refine ⟨ds', made', ?_⟩
  have outcome := Definition.outcome (Definition.written_of_makeAll made)
  have outcome' := Definition.outcome (Definition.written_of_makeAll made')
  have same := h.nodup_iff
  by_cases distinct : (defs.map (·.1)).Nodup
  · rcases named : Definition.naming ds with ⟨log, e⟩ | ⟨log, b⟩
    · obtain ⟨⟨log', e'⟩, named'⟩ := h.exists_naming_error made made' distinct named
      have distinct' := same.2 distinct
      rw [← names_of_makeAll made] at distinct
      rw [← names_of_makeAll made'] at distinct'
      obtain ⟨⟨why, rfl⟩, reported, -⟩ := outcome.refused distinct log e named
      obtain ⟨⟨why', rfl⟩, reported', -⟩ := outcome'.refused distinct' log' e' named'
      exact Or.inl ⟨_, _, reported, reported', .construction _ _⟩
    · obtain ⟨log', b', named'⟩ := h.exists_naming made made' distinct named
      exact h.sameOutcome_of_named made made' distinct named named'
  · have distinct' := mt same.1 distinct
    rw [← names_of_makeAll made] at distinct
    rw [← names_of_makeAll made'] at distinct'
    obtain ⟨name, -, reported⟩ := outcome.repeated distinct
    obtain ⟨name', -, reported'⟩ := outcome'.repeated distinct'
    exact Or.inl ⟨_, _, reported, reported', .duplicateName _ _⟩

/-- Lists of pairs, and pairs in which a binder awaits the name of the pair. -/
def braided : List (String × Expr) :=
  [("S", .union [.name "v_x", .product [.name "T", .name "S"]]),
    ("T", .mu 0 (.product [.union [.var 0, .name "v_y"], .name "S"]))]

/-- The same in the other order, where one name is spelled like the first that is handed out. -/
def braidedAgain : List (String × Expr) :=
  [("C", .mu 0 (.product [.union [.var 0, .name "v_y"], .name "t_0"])),
    ("t_0", .union [.name "v_x", .product [.name "C", .name "t_0"]])]

/-- The spellings. -/
def braidedSpelling (s : String) : String :=
  if s = "S" then "t_0" else "C"

/-- The definitions; the binder has got the name of the pair. -/
def braidedDefinitions : List Definition :=
  [⟨"S", .union [.name "v_x", .inline (.product [.name "T", .name "S"])], by decide⟩,
    ⟨"T", .product [.inline (.union [.name "T", .name "v_y"]), .name "S"], by decide⟩]

/-- Their grammar, in which the items of the union get the first name that is handed out. -/
def braidedGrammar : Grammar :=
  .ofBindings [("S", .union ["v_x", "t_0"]), ("T", .product ["t_1", "S"]),
    ("t_0", .product ["T", "S"]), ("t_1", .union ["T", "v_y"])]

/-- The definitions in the other spelling. -/
def braidedAgainDefinitions : List Definition :=
  [⟨"C", .product [.inline (.union [.name "C", .name "v_y"]), .name "t_0"], by decide⟩,
    ⟨"t_0", .union [.name "v_x", .inline (.product [.name "C", .name "t_0"])], by decide⟩]

/-- Their grammar, in which the first name is taken and the second goes to the items of the pair. -/
def braidedAgainGrammar : Grammar :=
  .ofBindings [("C", .product ["t_1", "t_0"]), ("t_0", .union ["v_x", "t_2"]),
    ("t_1", .union ["C", "v_y"]), ("t_2", .product ["C", "t_0"])]

/-- The expressions are read as the definitions. -/
theorem braided_made : Definition.makeAll braided = .ok braidedDefinitions := by
  cbv

/-- The expressions of the other spelling are read as the definitions. -/
theorem braidedAgain_made : Definition.makeAll braidedAgain = .ok braidedAgainDefinitions := by
  cbv

/-- The definitions are accepted. -/
theorem braided_built : (Grammar.ofDefinitions? braidedDefinitions).2 = .ok braidedGrammar := by
  cbv

/-- The definitions of the other spelling are accepted. -/
theorem braidedAgain_built :
    (Grammar.ofDefinitions? braidedAgainDefinitions).2 = .ok braidedAgainGrammar := by
  cbv

/-- The definitions are the same in another order and another spelling. -/
theorem braided_respelling : Respelling braidedSpelling braided braidedAgain := by
  refine ⟨?_, ?_, by decide, List.Perm.swap _ _ _⟩
  · simp [braided, Expr.literalsAll, Expr.literals, isTag]
  · simp [Set.InjOn, braided, braidedSpelling]

/-- In the other spelling the grammar is the same under other names, although one of these is the
first that was handed out before. -/
theorem ofDefinitions?_respelled_braided :
    ∃ ρ, ρ "S" = "t_0" ∧ ρ "T" = "C" ∧ braidedGrammar.Renamed ρ braidedAgainGrammar := by
  obtain ⟨ds', made', same⟩ := ofDefinitions?_respelled braided_respelling braided_made
  rw [braidedAgain_made] at made'
  cases made'
  rw [braided_built, braidedAgain_built] at same
  obtain ⟨e, e', failed, -⟩ | ⟨g, g', ρ, built, built', given, renamed⟩ := same
  · cases failed
  · cases built
    cases built'
    exact ⟨ρ, given "S" (by decide), given "T" (by decide), renamed⟩

end TreeGrammar
