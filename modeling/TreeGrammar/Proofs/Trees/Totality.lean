import Mathlib
import TreeGrammar.Proofs.Reading.Places
import TreeGrammar.Proofs.Trees.Conversion
import TreeGrammar.ScriptLanguage

/-!
# Derived trees always become plain data

The trees of a grammar that normalisation returns become plain data, except for those with a misfit.
Without field names there is none. Nor is there one in the script language, whose products keep the
items that they are written with, as many as there are field names for them.

* `Grammar.ListCell.toDatum_eq_ok_iff`: a list becomes the list of what its elements become.
* `ScriptLanguage.exists_grammar`: the script language is accepted.
* `ScriptLanguage.not_misfit`: its field names fit.
* `toDatum_total`: what the trees of a grammar become.
-/

namespace TreeGrammar

/-! ### Lists -/

/-- Several trees are turned into data exactly if each is. -/
theorem Tree.convertAll_eq_ok_iff {cells : List String} {fields : FieldNames} {ts : List Tree}
    {ds : List Datum} : Tree.convertAll cells fields ts = .ok ds ↔
      List.Forall₂ (fun t d => t.convert cells fields = .ok d) ts ds := by
  induction ts generalizing ds with
  | nil =>
    rw [Tree.convertAll, List.forall₂_nil_left_iff, Except.ok.injEq, eq_comm]
  | cons t ts ih =>
    rw [Tree.convertAll]
    constructor
    · intro all
      split at all
      · cases all
      · next d first =>
        split at all
        · cases all
        · next ds others =>
          cases all
          exact .cons first (ih.1 others)
    · rintro (_ | ⟨first, others⟩)
      rw [first]
      dsimp only
      rw [ih.2 others]

/-- A list becomes the list of what its elements become, in their order. -/
theorem Grammar.ListCell.toDatum_eq_ok_iff {g : Grammar} {cell rest : String} {elem : Ref}
    (h : g.ListCell cell elem rest) (fields : FieldNames) (xs : List Tree) (d : Datum) :
    (Tree.ofElements cell xs).toDatum g fields = .ok d ↔
      ∃ ds, d = .list ds ∧ List.Forall₂ (fun x d => x.toDatum g fields = .ok d) xs ds := by
  have all : (Tree.ofElements cell xs).toDatum g fields =
      (Tree.convertAll g.listCells fields xs).map Datum.list := by
    rw [Tree.toDatum]
    cases xs with
    | nil =>
      rw [Tree.ofElements_nil, Tree.convert, if_pos rfl, Tree.convertAll]
      rfl
    | cons x xs =>
      have chain := Tree.elements?_ofElements cell (x :: xs)
      rw [Tree.ofElements_cons] at chain ⊢
      exact Tree.convert_cell (isListCell_iff.2 ⟨elem, rest, h⟩) chain
  rw [all]
  simp only [Tree.toDatum, ← Tree.convertAll_eq_ok_iff]
  rcases Tree.convertAll g.listCells fields xs with e | ds
  · simp [Except.map]
  · simp [Except.map, eq_comm]

/-! ### The script language -/

/-- Where aliases lead up a rank no name is an alias for itself. -/
theorem Bindings.not_circular_of_rank {b : Bindings} (rank : String → Nat)
    (up : ∀ p ∈ b, ∀ x ∈ p.2.aliases, rank p.1 < rank x) (s : String) : ¬b.Circular s := by
  have step : ∀ s t, t ∈ b.next s → rank s < rank t := by
    intro s t step
    obtain ⟨body, found⟩ := exists_lookup_of_mem_names (mem_names_of_next step)
    rw [next, found] at step
    exact up _ (mem_of_lookup found) t step
  intro circular
  have later : Relation.TransGen (· < ·) (rank s) (rank s) := circular.lift rank step
  rw [Relation.transGen_eq_self] at later
  exact lt_irrefl _ later

namespace ScriptLanguage

/-- The types that the expressions are read as. Lists still await their names. -/
def types : List (String × Ty) :=
  let statement := Ref.name "t_Statement"
  let expression := Ref.name "t_Expression"
  [ ("t_Script", .product [.deferred (.list 0 [] statement)]),
    ("t_Statement",
      .union [.name "t_ExpressionStatement", .name "t_ReturnStatement", .name "t_BlockStatement"]),
    ("t_ExpressionStatement", .product [expression]),
    ("t_ReturnStatement", .product [.inline (.union [.inline (.product []), expression])]),
    ("t_BlockStatement", .product [.deferred (.list 1 [] statement)]),
    ("t_Expression",
      .union [.name "t_LiteralNumeric", .name "t_IdentifierExpression",
        .name "t_BinaryExpression", .name "t_UnaryExpression", .name "t_CallExpression"]),
    ("t_LiteralNumeric", .product [.name "v_number"]),
    ("t_IdentifierExpression", .product [.name "v_identifier"]),
    ("t_BinaryExpression", .product [expression, .name "v_BinOp", expression]),
    ("t_UnaryExpression", .product [.name "v_UnOp", expression]),
    ("t_CallExpression", .product [expression, .deferred (.list 2 [] expression)]) ]

/-- The grammar before unions are opened. -/
def bindings : Bindings :=
  [ ("t_Script", .product ["t_0"]),
    ("t_Statement", .union ["t_ExpressionStatement", "t_ReturnStatement", "t_BlockStatement"]),
    ("t_ExpressionStatement", .product ["t_Expression"]),
    ("t_ReturnStatement", .product ["t_1"]),
    ("t_BlockStatement", .product ["t_2"]),
    ("t_Expression",
      .union ["t_LiteralNumeric", "t_IdentifierExpression", "t_BinaryExpression",
        "t_UnaryExpression", "t_CallExpression"]),
    ("t_LiteralNumeric", .product ["v_number"]),
    ("t_IdentifierExpression", .product ["v_identifier"]),
    ("t_BinaryExpression", .product ["t_Expression", "v_BinOp", "t_Expression"]),
    ("t_UnaryExpression", .product ["v_UnOp", "t_Expression"]),
    ("t_CallExpression", .product ["t_Expression", "t_3"]),
    ("t_0", .union [emptyList, "t_4"]),
    ("t_1", .union ["t_5", "t_Expression"]),
    ("t_2", .union [emptyList, "t_6"]),
    ("t_3", .union [emptyList, "t_7"]),
    ("t_4", .product ["t_Statement", "t_0"]),
    ("t_5", .product []),
    ("t_6", .product ["t_Statement", "t_2"]),
    ("t_7", .product ["t_Expression", "t_3"]) ]

/-- The names with aliases, each before those that it is an alias for. -/
def order : List String :=
  [ "t_Script", "t_Statement", "t_ExpressionStatement", "t_ReturnStatement", "t_BlockStatement",
    "t_1", "t_Expression", "t_LiteralNumeric", "t_IdentifierExpression", "t_0", "t_2", "t_3" ]

/-- What an expression is read as for its name. -/
def Reads (p : String × Expr) (q : String × Ty) : Prop :=
  q.1 = p.1 ∧ p.2.bindTo p.1 [] = .ok (.ref (.inline q.2))

/-- The expressions are read as the types, one by one. -/
theorem reads_types : List.Forall₂ Reads expressions types := by
  simp only [expressions, types]
  refine .cons ⟨rfl, ?_⟩ <| .cons ⟨rfl, ?_⟩ <| .cons ⟨rfl, ?_⟩ <| .cons ⟨rfl, ?_⟩ <|
    .cons ⟨rfl, ?_⟩ <| .cons ⟨rfl, ?_⟩ <| .cons ⟨rfl, ?_⟩ <| .cons ⟨rfl, ?_⟩ <|
    .cons ⟨rfl, ?_⟩ <| .cons ⟨rfl, ?_⟩ <| .cons ⟨rfl, ?_⟩ .nil
  all_goals cbv

/-- The expressions make definitions with these types. -/
theorem exists_definitions :
    ∃ ds, definitions? = .ok ds ∧ (ds.map fun d => (d.name, d.type)) = types := by
  have definable : ∀ p ∈ expressions, IsDefinable p.1 := by decide
  have read : ∀ p ∈ expressions,
      IsDefinable p.1 ∧ ∃ t, p.2.bindTo p.1 [] = .ok (.ref (.inline t)) := by
    intro p hp
    obtain ⟨q, -, -, read⟩ := exists_of_forall₂_left reads_types p hp
    exact ⟨definable p hp, q.2, read⟩
  obtain ⟨ds, made⟩ := exists_makeAll read
  refine ⟨ds, made, List.right_unique_forall₂' ?_ ?_ reads_types⟩
  · rintro p q q' ⟨name, read⟩ ⟨name', read'⟩
    rw [read, Except.ok.injEq, Operand.ref.injEq, Ref.inline.injEq] at read'
    exact Prod.ext (name.trans name'.symm) read'
  · exact List.forall₂_map_right_iff.2 (makeAll_cases made)

/-- The types nested in them get names, and the bindings are these. -/
theorem exists_naming : ∃ log,
    extract (FreshNames.ofUsed (types.map (·.1)) "t_") types = .ok (log, bindings) := by
  have read : (extract (FreshNames.ofUsed (types.map (·.1)) "t_") types).map (·.2) =
      .ok bindings := by cbv
  rcases named : extract (FreshNames.ofUsed (types.map (·.1)) "t_") types with e | ⟨log, b⟩
  · rw [named] at read
    cases read
  · rw [named] at read
    obtain rfl : b = bindings := Except.ok.inj read
    exact ⟨log, named⟩

/-- No name is an alias for itself: names come before those that they are aliases for. -/
theorem not_circular (s : String) : ¬bindings.Circular s :=
  Bindings.not_circular_of_rank order.idxOf (by decide) s

/-- The script language is accepted. -/
theorem exists_grammar : ∃ ds events g, definitions? = .ok ds ∧
    Grammar.ofDefinitions? ds = (events, .ok g) ∧ grammar? = .ok g := by
  obtain ⟨ds, made, same⟩ := exists_definitions
  have names : ds.map (·.name) = types.map (·.1) := by rw [← same, queue_names]
  have distinct : (ds.map (·.name)).Nodup := by
    rw [names]
    decide
  obtain ⟨log, named⟩ : ∃ log, Definition.naming ds = .ok (log, bindings) := by
    rw [Definition.naming, names, same]
    exact exists_naming
  have ready := ready_of_naming distinct named
    (Bindings.accountedBy_of_unbound?_eq_none (by cbv))
  obtain ⟨flat, count, -, -, built⟩ := ready.of_founded not_circular ds.length
  refine ⟨ds, _, .ofBindings flat, made,
    by rw [Definition.ofDefinitions?_of_ok distinct named, built], ?_⟩
  rw [grammar?, made]
  dsimp only
  rw [Definition.ofDefinitions?_of_ok distinct named, built]

/-- Every entry names the items of a product. -/
theorem exists_product {name : String} {names : List String}
    (entry : fields.lookup name = some (some names)) :
    ∃ items, (name, .product items) ∈ expressions ∧ names.length = items.length := by
  have member : (name, some names) ∈ fields := mem_of_lookup entry
  simp only [fields, List.mem_cons, Prod.mk.injEq, Option.some.injEq, List.not_mem_nil,
    or_false] at member
  rcases member with ⟨rfl, rfl⟩ | ⟨rfl, rfl⟩ | ⟨rfl, rfl⟩ | ⟨rfl, rfl⟩ | ⟨rfl, rfl⟩ | ⟨rfl, rfl⟩ |
    ⟨rfl, rfl⟩ | ⟨rfl, rfl⟩ | ⟨rfl, rfl⟩
  all_goals exact ⟨_, by simp [expressions]; rfl, rfl⟩

/-- The field names fit: a name that is written with a product is bound to one with as many
items. -/
theorem not_misfit {ds : List Definition} {events : List Event} {g : Grammar}
    (made : definitions? = .ok ds) (built : Grammar.ofDefinitions? ds = (events, .ok g))
    (name : String) (children : List Tree) (names : List String) :
    ¬g.Misfit fields name children names := by
  intro misfit
  obtain ⟨named, flat, stages, rfl⟩ := Grammar.exists_stages built
  obtain ⟨log, naming⟩ := stages.naming
  obtain ⟨es, member, length⟩ := exists_product misfit.entry
  obtain ⟨d, hd, same, read⟩ := exists_of_forall₂_left (makeAll_cases made) _ member
  obtain ⟨items, e, stored⟩ := product_cases read
  injection e with e
  injection e with type
  have met : Nested.Met (ds.map fun d => (d.name, d.type)) log (d.name, d.type) :=
    Or.inl (List.mem_map_of_mem hd)
  obtain ⟨texts, bound, become⟩ := (stages.kept naming met).2.1 items type
  obtain ⟨items', bound', less⟩ := misfit.product
  change d.name = name at same
  rw [← same, bound] at bound'
  cases bound'
  rw [List.length_map, ← become.length_eq, ← stored.length_eq] at less
  exact less length

end ScriptLanguage

/-! ### What the trees of a grammar become -/

/-- A tree that is derived in a grammar that normalisation returns fails to become plain data
exactly if one of its nodes is a misfit: it has children, it is no cell of a list, and there are as
many field names for it as its product has no items. Such a node is then reported. Otherwise it
becomes what its shape calls for, and a list becomes the list of what its elements become. Without
field names no tree fails, and with its own no tree of the script language. -/
theorem toDatum_total {ds : List Definition} {events : List Event} {g : Grammar}
    (built : Grammar.ofDefinitions? ds = (events, .ok g)) :
    (∀ s, ∀ t ∈ g.treesOf (.name s), ∀ fields : FieldNames,
      ((∃ e, t.toDatum g fields = .error e) ↔
        ∃ name children names, .node name children ∈ t.subtrees ∧
          g.Misfit fields name children names) ∧
      (∀ e, t.toDatum g fields = .error e → g.Reports fields t.subtrees e) ∧
      ∀ d, t.toDatum g fields = .ok d ↔ t.Becomes g fields d) ∧
    (∀ cell elem rest, g.ListCell cell elem rest → ∀ t ∈ g.treesOf (.name rest),
      ∃ xs, t = .ofElements cell xs ∧ (∀ x ∈ xs, x ∈ g.treesOf elem) ∧
        ∀ fields d, t.toDatum g fields = .ok d ↔
          ∃ ds, d = .list ds ∧ List.Forall₂ (fun x d => x.toDatum g fields = .ok d) xs ds) ∧
    (∀ s, ∀ t ∈ g.treesOf (.name s), ∃ d, t.toDatum g [] = .ok d) ∧
    ∃ script, ScriptLanguage.grammar? = .ok script ∧
      ∀ s, ∀ t ∈ script.treesOf (.name s),
        ∃ d, t.toDatum script ScriptLanguage.fields = .ok d := by
  obtain ⟨named, flat, stages, rfl⟩ := Grammar.exists_stages built
  have closed := stages.flat_closed
  refine ⟨fun s t derived fields => ?_, fun cell elem rest cells t derived => ?_,
    fun s t derived => ?_, ?_⟩
  · have settles := t.settles_of_derived closed fields derived
    exact ⟨settles.exists_error_iff, fun _ => settles.reports, settles.toDatum_eq_ok_iff⟩
  · obtain ⟨xs, elems, rfl⟩ := cells.exists_ofElements closed t derived
    exact ⟨xs, rfl, elems, fun fields => cells.toDatum_eq_ok_iff fields xs⟩
  · refine (t.settles_of_derived closed [] derived).exists_toDatum fun _ _ _ _ misfit => ?_
    cases misfit.entry
  · obtain ⟨ds', events', script, made, built', accepted⟩ := ScriptLanguage.exists_grammar
    refine ⟨script, accepted, fun s t derived => ?_⟩
    have misfits := ScriptLanguage.not_misfit made built'
    obtain ⟨named', flat', stages', rfl⟩ := Grammar.exists_stages built'
    exact (t.settles_of_derived stages'.flat_closed _ derived).exists_toDatum
      fun name children names _ => misfits name children names

/-- A pair of a tag and a list of two tags. -/
def listedTree : Tree :=
  .node "M" [.leaf "v_y", .ofElements "t_1" [.leaf "v_x", .leaf "v_x"]]

/-- With one field name for two children the tree is a misfit, and without field names it is turned
into data. -/
theorem toDatum_total_listed :
    (∃ e, listedTree.toDatum (.ofBindings listedBindings) [("M", some ["head"])] = .error e) ∧
      ∃ d, listedTree.toDatum (.ofBindings listedBindings) [] = .ok d := by
  obtain ⟨events, built⟩ := listed_built
  obtain ⟨trees, lists, bare, -⟩ := toDatum_total built
  have x : (Grammar.ofBindings listedBindings).Derives (.name "v_x") (.leaf "v_x") :=
    .tag (by decide)
  have empty : (Grammar.ofBindings listedBindings).Derives (.name "t_0")
      (.choice 0 (.leaf emptyList)) := .union (by decide) rfl rfl (.tag isTag_emptyList)
  have cell : ∀ d, (Grammar.ofBindings listedBindings).Derives (.name "t_0") d →
      (Grammar.ofBindings listedBindings).Derives (.name "t_0")
        (.choice 1 (.node "t_1" [.leaf "v_x", d])) := fun d list =>
    .union (by decide) rfl rfl (.product (by decide) rfl (.cons x (.cons list .nil)))
  have derived : listedTree ∈ (Grammar.ofBindings listedBindings).treesOf (.name "M") :=
    ⟨_, .product (by decide) rfl (.cons (.tag (by decide)) (.cons (cell _ (cell _ empty)) .nil)),
      rfl⟩
  refine ⟨(trees "M" _ derived _).1.2 ⟨"M", _, ["head"], List.mem_cons_self, ?_⟩,
    bare "M" _ derived⟩
  exact ⟨nofun, by decide, rfl, _, rfl, by decide⟩

end TreeGrammar
