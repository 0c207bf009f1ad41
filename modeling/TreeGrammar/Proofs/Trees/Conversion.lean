import Mathlib
import TreeGrammar.Proofs.Reading.Realisation
import TreeGrammar.Proofs.Trees.Chains
import TreeGrammar.Tree.Data

/-!
# Derived trees as plain data

Turning a derived tree into plain data goes from node to node, and through a chain of cells from
element to element. A chain that is derived always ends in the empty list, so all that can go wrong
is a node with as many field names as its product has no items; a tree without such a node is turned
into the data that its shape calls for.

* `Tree.subtrees`: a tree and all trees in it.
* `Grammar.Misfit`: a node with a wrong number of field names.
* `Tree.Becomes`: the data that a tree is turned into.
* `Tree.Settles`, `Tree.settles_of_derived`: a derived tree becomes plain data, or a misfit is
  reported.
-/

namespace TreeGrammar

/-! ### Trees in trees -/

namespace Tree

mutual

/-- A tree and all trees in it. -/
def subtrees : Tree → List Tree
  | leaf tag => [leaf tag]
  | node name cs => node name cs :: subtreesAll cs

/-- Several trees and all trees in them. -/
def subtreesAll : List Tree → List Tree
  | [] => []
  | c :: cs => c.subtrees ++ subtreesAll cs

end

/-- A tree in a node is the node itself or in one of its children. -/
theorem mem_subtrees_node {u : Tree} {name : String} {cs : List Tree} :
    u ∈ (node name cs).subtrees ↔ u = node name cs ∨ u ∈ subtreesAll cs := by
  rw [subtrees, List.mem_cons]

/-- A tree in an element of a chain is in the chain. -/
theorem mem_subtrees_ofElements {u : Tree} {cell : String} {xs : List Tree}
    (h : u ∈ subtreesAll xs) : u ∈ (ofElements cell xs).subtrees := by
  induction xs with
  | nil => cases h
  | cons x xs ih =>
    rw [ofElements_cons, mem_subtrees_node, subtreesAll, subtreesAll, subtreesAll, List.append_nil,
      List.mem_append]
    rw [subtreesAll, List.mem_append] at h
    exact Or.inr (h.imp_right ih)

/-- In a chain there are its end, its cells and what is in its elements. -/
theorem mem_subtrees_ofElements_cases {u : Tree} {cell : String} {xs : List Tree}
    (h : u ∈ (ofElements cell xs).subtrees) :
    u = leaf emptyList ∨ (∃ cs, u = node cell cs) ∨ u ∈ subtreesAll xs := by
  induction xs with
  | nil => exact Or.inl (List.mem_singleton.1 h)
  | cons x xs ih =>
    rw [ofElements_cons, mem_subtrees_node, subtreesAll, subtreesAll, subtreesAll, List.append_nil,
      List.mem_append] at h
    rw [subtreesAll, List.mem_append]
    rcases h with rfl | inside | later
    · exact Or.inr (Or.inl ⟨_, rfl⟩)
    · exact Or.inr (Or.inr (Or.inl inside))
    · exact (ih later).imp_right (Or.imp_right Or.inr)

end Tree

namespace Grammar

/-- A node of derived trees has a number of field names that is not the number of items of its
product. The cells of lists have no fields, nor have nodes without children. -/
structure Misfit (g : Grammar) (fields : FieldNames) (name : String) (children : List Tree)
    (names : List String) : Prop where
  inner : children ≠ []
  other : ¬g.isListCell name = true
  entry : fields.lookup name = some (some names)
  product : ∃ items, g.get? name = some (.product items) ∧ names.length ≠ items.length

/-- No node among some trees is a misfit. -/
def Fits (g : Grammar) (fields : FieldNames) (trees : List Tree) : Prop :=
  ∀ name children names, .node name children ∈ trees → ¬g.Misfit fields name children names

/-- A failure reports a misfit among some trees, with the numbers that do not agree. -/
def Reports (g : Grammar) (fields : FieldNames) (trees : List Tree) (e : Failure) : Prop :=
  ∃ name children names, .node name children ∈ trees ∧ g.Misfit fields name children names ∧
    e = .badValue (.fieldCount name children.length names.length)

/-- The list cells are the names that are taken for them. -/
theorem mem_listCells_iff {g : Grammar} {name : String} :
    name ∈ g.listCells ↔ g.isListCell name = true := by
  rw [listCells, List.mem_filter]
  refine and_iff_right_of_imp fun isCell => ?_
  obtain ⟨elem, rest, cells⟩ := isListCell_iff.1 isCell
  exact mem_names_of_get? cells.pair

end Grammar

/-! ### The data of a tree -/

mutual

/-- The data that a tree becomes: the elements of a chain as a list, a node without children as
nothing, and any other node as a record, with its children under the field names that there are for
its name. -/
inductive Tree.Becomes (g : Grammar) (fields : FieldNames) : Tree → Datum → Prop
  | tag {tag : String} (other : tag ≠ emptyList) : Becomes g fields (.leaf tag) (.text tag)
  | empty : Becomes g fields (.leaf emptyList) (.list [])
  | list {cell : String} {xs : List Tree} {ds : List Datum} (isCell : g.isListCell cell = true)
      (each : BecomeAll g fields xs ds) : Becomes g fields (.ofElements cell xs) (.list ds)
  | unit {name : String} (other : ¬g.isListCell name = true) :
      Becomes g fields (.node name []) .null
  | plain {name : String} {cs : List Tree} {ds : List Datum} (other : ¬g.isListCell name = true)
      (inner : cs ≠ []) (entry : ∀ names, fields.lookup name ≠ some (some names))
      (each : BecomeAll g fields cs ds) :
      Becomes g fields (.node name cs) (.record [("type", .text name), ("children", .list ds)])
  | named {name : String} {cs : List Tree} {ds : List Datum} {names : List String}
      (other : ¬g.isListCell name = true) (inner : cs ≠ [])
      (entry : fields.lookup name = some (some names)) (length : names.length = cs.length)
      (each : BecomeAll g fields cs ds) :
      Becomes g fields (.node name cs) (.record ((names.zip ds).foldl
        (fun acc (key, d) => Datum.set acc key d) [("type", .text name)]))

/-- The data that several trees become. -/
inductive Tree.BecomeAll (g : Grammar) (fields : FieldNames) : List Tree → List Datum → Prop
  | nil : BecomeAll g fields [] []
  | cons {t : Tree} {d : Datum} {ts : List Tree} {ds : List Datum} (first : Becomes g fields t d)
      (others : BecomeAll g fields ts ds) : BecomeAll g fields (t :: ts) (d :: ds)

end

/-! ### What derived trees become -/

section

variable {g : Grammar} {fields : FieldNames}

/-- Where nodes fit so do fewer. Cells of lists always fit. -/
theorem Grammar.Fits.mono {trees others : List Tree} (h : g.Fits fields trees)
    (sub : ∀ name cs, .node name cs ∈ others → ¬g.isListCell name = true →
      Tree.node name cs ∈ trees) : g.Fits fields others :=
  fun name cs names member misfit => h name cs names (sub name cs member misfit.other) misfit

/-- A misfit among some trees is one among more. -/
theorem Grammar.Reports.mono {trees others : List Tree} {e : Failure} (h : g.Reports fields trees e)
    (sub : ∀ u ∈ trees, u ∈ others) : g.Reports fields others e := by
  obtain ⟨name, cs, names, member, misfit⟩ := h
  exact ⟨name, cs, names, sub _ member, misfit⟩

/-- Where a misfit is reported some node does not fit. -/
theorem Grammar.Reports.not_fits {trees : List Tree} {e : Failure} (h : g.Reports fields trees e) :
    ¬g.Fits fields trees := by
  obtain ⟨name, cs, names, member, misfit, -⟩ := h
  exact fun fits => fits name cs names member misfit

namespace Tree

/-- The elements of a cell are turned into data one by one. -/
theorem convert_cell {cell : String} {cs xs : List Tree} (isCell : g.isListCell cell = true)
    (chain : (node cell cs).elements? = .ok xs) :
    convert g.listCells fields (node cell cs) =
      (convertAll g.listCells fields xs).map Datum.list := by
  rw [convert, if_pos (Grammar.mem_listCells_iff.2 isCell)]
  split
  · next failed =>
    rw [chain] at failed
    cases failed
  · next ys read =>
    rw [chain] at read
    cases read
    cases convertAll g.listCells fields xs <;> rfl

/-- Equation lemma: a node without children becomes nothing. -/
theorem convert_unit {name : String} (other : ¬g.isListCell name = true) :
    convert g.listCells fields (node name []) = .ok .null := by
  rw [convert, if_neg fun h => other (Grammar.mem_listCells_iff.1 h)]
  rfl

/-- Equation lemma: a node without field names becomes a record of its name and the list of its
children. -/
theorem convert_plain {name : String} {cs : List Tree} (other : ¬g.isListCell name = true)
    (inner : cs ≠ []) (entry : ∀ names, fields.lookup name ≠ some (some names)) :
    convert g.listCells fields (node name cs) = (convertAll g.listCells fields cs).map
      fun ds => .record [("type", .text name), ("children", .list ds)] := by
  have none : (fields.lookup name).join = none := by
    rcases found : fields.lookup name with _ | _ | names
    · rfl
    · rfl
    · exact absurd found (entry names)
  rw [convert, if_neg fun h => other (Grammar.mem_listCells_iff.1 h),
    if_neg (by simpa using inner), none]
  dsimp only
  cases convertAll g.listCells fields cs <;> rfl

/-- Equation lemma: a node with field names becomes a record, if there is one for each child. -/
theorem convert_named {name : String} {cs : List Tree} {names : List String}
    (other : ¬g.isListCell name = true) (inner : cs ≠ [])
    (entry : fields.lookup name = some (some names)) :
    convert g.listCells fields (node name cs) =
      if names.length ≠ cs.length then .error (.badValue (.fieldCount name cs.length names.length))
      else (convertAll g.listCells fields cs).map fun ds => .record ((names.zip ds).foldl
        (fun acc (key, d) => Datum.set acc key d) [("type", .text name)]) := by
  rw [convert, if_neg fun h => other (Grammar.mem_listCells_iff.1 h),
    if_neg (by simpa using inner), entry]
  dsimp only [Option.join]
  cases convertAll g.listCells fields cs <;> rfl

mutual

/-- A tree is turned into what it becomes. -/
theorem Becomes.convert {t : Tree} {d : Datum} : t.Becomes g fields d →
    t.convert g.listCells fields = .ok d
  | .tag other => by rw [Tree.convert, if_neg other]
  | .empty => by rw [Tree.convert, if_pos rfl]
  | @Becomes.list _ _ cell xs _ isCell each => by
    have all := each.convertAll
    cases xs with
    | nil =>
      rw [Tree.convertAll] at all
      cases all
      rw [ofElements_nil, Tree.convert, if_pos rfl]
    | cons x xs =>
      have chain := elements?_ofElements cell (x :: xs)
      rw [ofElements_cons] at chain ⊢
      rw [convert_cell isCell chain, all]
      rfl
  | .unit other => convert_unit other
  | .plain other inner entry each => by
    rw [convert_plain other inner entry, each.convertAll]
    rfl
  | .named other inner entry length each => by
    rw [convert_named other inner entry, if_neg (not_not_intro length), each.convertAll]
    rfl

/-- What several trees become is what they are turned into. -/
theorem BecomeAll.convertAll {ts : List Tree} {ds : List Datum} : BecomeAll g fields ts ds →
    Tree.convertAll g.listCells fields ts = .ok ds
  | .nil => by rw [Tree.convertAll]
  | .cons first others => by
    rw [Tree.convertAll, first.convert]
    dsimp only
    rw [others.convertAll]

end

/-- A tree becomes plain data and all its nodes fit, or a misfit is reported. -/
def Settles (g : Grammar) (fields : FieldNames) (t : Tree) : Prop :=
  (∃ d, t.Becomes g fields d ∧ g.Fits fields t.subtrees) ∨
    ∃ e, t.convert g.listCells fields = .error e ∧ g.Reports fields t.subtrees e

/-- Several trees are turned into data one by one, up to the first misfit. -/
theorem settles_all {ts : List Tree} (each : ∀ t ∈ ts, t.Settles g fields) :
    (∃ ds, BecomeAll g fields ts ds ∧ g.Fits fields (subtreesAll ts)) ∨
      ∃ e, convertAll g.listCells fields ts = .error e ∧ g.Reports fields (subtreesAll ts) e := by
  induction ts with
  | nil => exact Or.inl ⟨[], .nil, fun _ _ _ member => absurd member List.not_mem_nil⟩
  | cons t ts ih =>
    obtain ⟨first, others⟩ := List.forall_mem_cons.1 each
    rw [subtreesAll]
    rcases first with ⟨d, becomes, fits⟩ | ⟨e, failed, reports⟩
    · rcases ih others with ⟨ds, become, fits'⟩ | ⟨e, failed, reports⟩
      · refine Or.inl ⟨d :: ds, .cons becomes become, fun name cs names member => ?_⟩
        exact (List.mem_append.1 member).elim (fits name cs names) (fits' name cs names)
      · refine Or.inr ⟨e, ?_, reports.mono fun u => List.mem_append_right _⟩
        rw [convertAll, becomes.convert]
        dsimp only
        rw [failed]
    · refine Or.inr ⟨e, ?_, reports.mono fun u => List.mem_append_left _⟩
      rw [convertAll, failed]

/-- A chain becomes the list of what its elements become. -/
theorem settles_chain {cell : String} {xs : List Tree} (isCell : g.isListCell cell = true)
    (each : ∀ x ∈ xs, x.Settles g fields) : (ofElements cell xs).Settles g fields := by
  rcases settles_all each with ⟨ds, become, fits⟩ | ⟨e, failed, reports⟩
  · refine Or.inl ⟨.list ds, .list isCell become, fits.mono fun name cs member other => ?_⟩
    rcases mem_subtrees_ofElements_cases member with same | ⟨cs', same⟩ | inside
    · cases same
    · cases same
      exact absurd isCell other
    · exact inside
  · refine Or.inr ⟨e, ?_, reports.mono fun u => mem_subtrees_ofElements⟩
    cases xs with
    | nil =>
      rw [convertAll] at failed
      cases failed
    | cons x xs =>
      have chain := elements?_ofElements cell (x :: xs)
      rw [ofElements_cons] at chain ⊢
      rw [convert_cell isCell chain, failed]
      rfl

/-- A node that is no cell fits or is a misfit itself, and then its children are turned into data
one by one. -/
theorem settles_node {name : String} {cs : List Tree} {items : List Ref}
    (other : ¬g.isListCell name = true) (bound : g.get? name = some (.product items))
    (length : items.length = cs.length) (each : ∀ c ∈ cs, c.Settles g fields) :
    (node name cs).Settles g fields := by
  by_cases unit : cs = []
  · subst unit
    refine Or.inl ⟨.null, .unit other, fun name' cs' names member misfit => ?_⟩
    rw [subtrees, subtreesAll, List.mem_singleton] at member
    cases member
    exact misfit.inner rfl
  -- the node itself is a misfit only if it has field names, as many as it has no children
  have fits : g.Fits fields (subtreesAll cs) →
      (∀ names, fields.lookup name = some (some names) → names.length = cs.length) →
      g.Fits fields (node name cs).subtrees := by
    intro below own name' cs' names member misfit
    rcases mem_subtrees_node.1 member with same | inside
    · cases same
      obtain ⟨items', bound', less⟩ := misfit.product
      rw [bound] at bound'
      cases bound'
      exact less (length ▸ own names misfit.entry)
    · exact below name' cs' names inside misfit
  have later : ∀ {e}, g.Reports fields (subtreesAll cs) e →
      g.Reports fields (node name cs).subtrees e :=
    fun reports => reports.mono fun u inside => mem_subtrees_node.2 (Or.inr inside)
  by_cases entry : ∃ names, fields.lookup name = some (some names)
  · obtain ⟨names, entry⟩ := entry
    by_cases agree : names.length = cs.length
    · rcases settles_all each with ⟨ds, become, below⟩ | ⟨e, failed, reports⟩
      · refine Or.inl ⟨_, .named other unit entry agree become, fits below fun names' entry' => ?_⟩
        rw [entry] at entry'
        cases entry'
        exact agree
      · refine Or.inr ⟨e, ?_, later reports⟩
        rw [convert_named other unit entry, if_neg (not_not_intro agree), failed]
        rfl
    · refine Or.inr ⟨_, ?_, name, cs, names, mem_subtrees_node.2 (Or.inl rfl),
        ⟨unit, other, entry, items, bound, length ▸ agree⟩, rfl⟩
      rw [convert_named other unit entry, if_pos agree]
  · rw [not_exists] at entry
    rcases settles_all each with ⟨ds, become, below⟩ | ⟨e, failed, reports⟩
    · exact Or.inl ⟨_, .plain other unit entry become,
        fits below fun names entry' => absurd entry' (entry names)⟩
    · refine Or.inr ⟨e, ?_, later reports⟩
      rw [convert_plain other unit entry, failed]
      rfl

/-- All derived trees settle. A cell that is derived begins a chain of elements that are derived,
and the children of any other node are derived. -/
theorem settles_of_derived (closed : g.Closed) (fields : FieldNames) (t : Tree) {r : Ref}
    (derived : t ∈ g.treesOf r) : t.Settles g fields := by
  match t with
  | leaf tag =>
    refine Or.inl ?_
    have fits : g.Fits fields (leaf tag).subtrees := by
      intro name cs names member
      rw [subtrees, List.mem_singleton] at member
      cases member
    by_cases empty : tag = emptyList
    · subst empty
      exact ⟨_, .empty, fits⟩
    · exact ⟨_, .tag empty, fits⟩
  | node name cs =>
    obtain ⟨items, bound, below⟩ := Grammar.node_cases derived
    by_cases isCell : g.isListCell name = true
    · obtain ⟨elem, rest, cells⟩ := Grammar.isListCell_iff.1 isCell
      obtain ⟨xs, elems, same⟩ := cells.exists_ofElements closed _ (cells.node_mem closed derived)
      have chain : (node name cs).elements? = .ok xs := by rw [same, elements?_ofElements]
      have smaller : ∀ x ∈ xs, sizeOf x < sizeOf (node name cs) := fun x hx =>
        (List.sizeOf_lt_of_mem hx).trans (sizeOf_elements?_node chain)
      rw [same]
      exact settles_chain isCell fun x hx => settles_of_derived closed fields x (elems x hx)
    · refine settles_node isCell bound below.length_eq fun c hc => ?_
      obtain ⟨item, -, derived⟩ := exists_of_forall₂_right below c hc
      exact settles_of_derived closed fields c derived
termination_by t
decreasing_by
  · exact smaller x hx
  · have := List.sizeOf_lt_of_mem hc
    rw [node.sizeOf_spec]
    omega

namespace Settles

variable {t : Tree} (h : t.Settles g fields)
include h

/-- If a tree fails to become plain data a misfit is reported. -/
theorem reports {e : Failure} (failed : t.toDatum g fields = .error e) :
    g.Reports fields t.subtrees e := by
  rw [toDatum] at failed
  rcases h with ⟨d, becomes, -⟩ | ⟨e', failed', reports⟩
  · rw [becomes.convert] at failed
    cases failed
  · rw [failed'] at failed
    cases failed
    exact reports

/-- Where all nodes fit there are data. -/
theorem exists_toDatum (fits : g.Fits fields t.subtrees) :
    ∃ d, t.toDatum g fields = .ok d := by
  rcases h with ⟨d, becomes, -⟩ | ⟨e, -, reports⟩
  · exact ⟨d, becomes.convert⟩
  · exact absurd fits reports.not_fits

/-- A tree fails to become plain data exactly if it has a misfit. -/
theorem exists_error_iff : (∃ e, t.toDatum g fields = .error e) ↔
    ∃ name children names, .node name children ∈ t.subtrees ∧
      g.Misfit fields name children names := by
  constructor
  · rintro ⟨e, failed⟩
    obtain ⟨name, cs, names, member, misfit, -⟩ := h.reports failed
    exact ⟨name, cs, names, member, misfit⟩
  · rintro ⟨name, cs, names, member, misfit⟩
    rcases h with ⟨d, -, fits⟩ | ⟨e, failed, -⟩
    · exact absurd misfit (fits name cs names member)
    · exact ⟨e, failed⟩

/-- The data are what the tree becomes. -/
theorem toDatum_eq_ok_iff (d : Datum) : t.toDatum g fields = .ok d ↔ t.Becomes g fields d := by
  refine ⟨fun made => ?_, Becomes.convert⟩
  rw [toDatum] at made
  rcases h with ⟨d', becomes, -⟩ | ⟨e, failed, -⟩
  · rw [becomes.convert] at made
    cases made
    exact becomes
  · rw [failed] at made
    cases made

end Settles

end Tree

end

end TreeGrammar
