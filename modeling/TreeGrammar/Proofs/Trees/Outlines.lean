import Mathlib
import TreeGrammar.Proofs.Trees.Conversion
import TreeGrammar.Tree.Outline

/-!
# Outlines show trees

The lines of an outline are those of the leaves and nodes of the tree, each before its children. The
number of blanks before a line tells at what depth its tree stands, since no connector begins with a
blank; the names themselves may hold blanks and connectors. The children of a node are thus the
trees one level deeper that follow it, up to the first line that stands no deeper than the node.

* `Tree.Drawable`: tags and names stand on one line, and names are no tags.
* `Tree.Item`, `Tree.items`: the leaves and nodes of a tree, with where they stand.
* `Tree.lines_outline`: each of them has a line.
* `Tree.Item.of_line`: what a line below the root tells.
* `Tree.eq_of_marks`: depths and labels, in their order, tell the trees.
* `outline_lossless`: an outline shows one tree.
-/

namespace TreeGrammar

/-- The lines of a text, with newlines between them. -/
def Text.lines (s : String) : List String :=
  (s.toList.splitOn '\n').map String.ofList

/-- Lines that are joined come back, if there are any and no line has a break in it. -/
theorem Text.lines_intercalate {ls : List String} (single : ∀ l ∈ ls, '\n' ∉ l.toList)
    (some : ls ≠ []) : Text.lines ("\n".intercalate ls) = ls := by
  have split : (List.intercalate ['\n'] (ls.map String.toList)).splitOn '\n' =
      ls.map String.toList := by
    refine List.splitOn_intercalate _ ?_ (by simpa using some)
    rw [List.forall_mem_map]
    exact single
  rw [Text.lines, String.toList_intercalate, show "\n".toList = ['\n'] by rfl, split, List.map_map]
  exact List.map_id'' (fun _ => String.ofList_toList) ls

namespace Tree

/-! ### Drawable trees -/

/-- A leaf has a tag, a node has a name that may be defined, and either stands on one line. -/
def Legible : Tree → Prop
  | leaf tag => isTag tag = true ∧ '\n' ∉ tag.toList
  | node name _ => IsDefinable name ∧ '\n' ∉ name.toList

instance (t : Tree) : Decidable t.Legible :=
  match t with
  | leaf _ => inferInstanceAs (Decidable (_ ∧ _))
  | node _ _ => inferInstanceAs (Decidable (_ ∧ _))

/-- Every leaf and node is legible. -/
def Drawable (t : Tree) : Prop :=
  ∀ u ∈ t.subtrees, u.Legible

instance (t : Tree) : Decidable t.Drawable :=
  inferInstanceAs (Decidable (∀ u ∈ t.subtrees, u.Legible))

/-- The trees in a tree are itself and those in its children. -/
theorem subtrees_eq (t : Tree) : t.subtrees = t :: subtreesAll t.children := by
  cases t with
  | leaf => rw [subtrees, children, subtreesAll]
  | node => rw [subtrees, children]

/-- The mark of a childless node makes no tag of its name. -/
theorem not_isTag_unit {name : String} (definable : IsDefinable name) :
    ¬isTag (name ++ " ()") = true := by
  obtain ⟨some, untagged⟩ := definable
  rw [isTag_iff, String.toList_append]
  rintro ⟨rest, e⟩
  rcases chars : name.toList with _ | ⟨c, _ | ⟨c', cs⟩⟩
  · exact some (String.toList_eq_nil_iff.1 chars)
  · rw [chars] at e
    cases e
  · rw [chars, List.cons_append, List.cons_append, List.cons.injEq, List.cons.injEq] at e
    obtain ⟨rfl, rfl, -⟩ := e
    exact Bool.eq_false_iff.1 untagged (isTag_iff.2 ⟨cs, chars⟩)

/-- A tag is no label of a node. -/
theorem label_leaf_ne {tag name : String} {cs : List Tree} (tagged : isTag tag = true)
    (definable : IsDefinable name) : (leaf tag).label ≠ (node name cs).label := by
  intro same
  cases cs with
  | nil =>
    obtain rfl : tag = name ++ " ()" := same
    exact not_isTag_unit definable tagged
  | cons =>
    obtain rfl : tag = name := same
    exact Bool.eq_false_iff.1 definable.2 tagged

/-- The label and the children tell a legible tree. -/
theorem Legible.eq_of_label {t u : Tree} (ht : t.Legible) (hu : u.Legible)
    (labels : t.label = u.label) (children : t.children = u.children) : t = u := by
  match t, u with
  | leaf _, leaf _ => exact congrArg leaf labels
  | leaf _, node _ _ => exact absurd labels (label_leaf_ne ht.1 hu.1)
  | node _ _, leaf _ => exact absurd labels.symm (label_leaf_ne hu.1 ht.1)
  | node m [], node n [] =>
    have names : m ++ " ()" = n ++ " ()" := labels
    rw [String.append_left_inj] at names
    rw [names]
  | node m [], node n (_ :: _) => cases children
  | node m (_ :: _), node n [] => cases children
  | node m (_ :: _), node n (_ :: _) =>
    have names : m = n := labels
    cases children
    rw [names]

/-- A label that is legible is on one line. -/
theorem Legible.newline_notMem_label {t : Tree} (h : t.Legible) : '\n' ∉ t.label.toList := by
  match t with
  | leaf _ => exact h.2
  | node name [] =>
    rw [label, String.toList_append, List.mem_append]
    exact not_or_intro h.2 (by decide)
  | node _ (_ :: _) => exact h.2

/-! ### Leaves and nodes in their order -/

/-- A leaf or a node of a tree, at some depth, and whether it is the last child. -/
structure Item where
  depth : Nat
  last : Bool
  tree : Tree

mutual

/-- The leaves and nodes of a tree that stands at some depth, each before its children. -/
def items (depth : Nat) (last : Bool) : Tree → List Item
  | leaf tag => [⟨depth, last, leaf tag⟩]
  | node name cs => ⟨depth, last, node name cs⟩ :: itemsAll (depth + 1) cs

/-- The leaves and nodes of the children of a node. -/
def itemsAll (depth : Nat) : List Tree → List Item
  | [] => []
  | c :: cs => c.items depth cs.isEmpty ++ itemsAll depth cs

end

/-- A tree stands before the items of its children, which are one level deeper. -/
theorem items_eq (depth : Nat) (last : Bool) (t : Tree) :
    t.items depth last = ⟨depth, last, t⟩ :: itemsAll (depth + 1) t.children := by
  cases t with
  | leaf => rw [items, children, itemsAll]
  | node => rw [items, children]

mutual

/-- There are items for all trees in a tree. -/
theorem map_tree_items : (t : Tree) → ∀ depth last,
    (t.items depth last).map Item.tree = t.subtrees
  | leaf _, _, _ => by rw [items, subtrees, List.map_singleton]
  | node _ cs, _, _ => by rw [items, subtrees, List.map_cons, map_tree_itemsAll cs]

/-- The items of several trees are the trees in them, in one order. -/
theorem map_tree_itemsAll : (cs : List Tree) → ∀ depth,
    (itemsAll depth cs).map Item.tree = subtreesAll cs
  | [], _ => by rw [itemsAll, subtreesAll, List.map_nil]
  | c :: cs, _ => by
    rw [itemsAll, subtreesAll, List.map_append, map_tree_items c, map_tree_itemsAll cs]

end

namespace Item

/-- What stands between the blanks and the label. -/
def connector (x : Item) : String :=
  if x.depth = 0 then "" else if x.last then "└─ " else "├─ "

/-- The line of a leaf or a node. -/
def line (x : Item) : String :=
  String.ofList (List.replicate (3 * x.depth) ' ') ++ x.connector ++ x.tree.label

/-- The depth, and what is shown of the tree. -/
def mark (x : Item) : Nat × String :=
  (x.depth, x.tree.label)

/-- The line of an item that is legible has no break in it. -/
theorem newline_notMem_line {x : Item} (h : x.tree.Legible) : '\n' ∉ x.line.toList := by
  rw [line, String.toList_append, String.toList_append, String.toList_ofList, List.mem_append,
    List.mem_append]
  refine not_or_intro (not_or_intro ?_ ?_) h.newline_notMem_label
  · exact fun blank => absurd (List.eq_of_mem_replicate blank) (by decide)
  · rw [connector]
    split_ifs <;> decide

/-- A connector begins with no blank, and takes three characters. -/
theorem connector_below {x : Item} (below : 1 ≤ x.depth) :
    ∃ c, c ≠ ' ' ∧ x.connector.toList = [c, '─', ' '] := by
  rw [connector, if_neg (Nat.one_le_iff_ne_zero.1 below)]
  cases x.last with
  | true => exact ⟨'└', by decide, rfl⟩
  | false => exact ⟨'├', by decide, rfl⟩

/-- The blanks that a text begins with can be counted. -/
theorem replicate_append_inj {m n : Nat} {a c c' : Char} {s s' : List Char} (hc : c ≠ a)
    (hc' : c' ≠ a) (e : List.replicate m a ++ c :: s = List.replicate n a ++ c' :: s') :
    m = n ∧ s = s' := by
  induction m generalizing n with
  | zero =>
    cases n with
    | zero => exact ⟨rfl, (List.cons.inj e).2⟩
    | succ => exact absurd (List.cons.inj e).1 hc
  | succ m ih =>
    cases n with
    | zero => exact absurd (List.cons.inj e).1.symm hc'
    | succ n =>
      obtain ⟨same, rest⟩ := ih (List.cons.inj e).2
      exact ⟨congrArg Nat.succ same, rest⟩

/-- Below the root a line tells the depth and the label. -/
theorem of_line {x y : Item} (hx : 1 ≤ x.depth) (hy : 1 ≤ y.depth) (e : x.line = y.line) :
    x.mark = y.mark := by
  obtain ⟨c, hc, begins⟩ := connector_below hx
  obtain ⟨c', hc', begins'⟩ := connector_below hy
  have chars := congrArg String.toList e
  simp only [line, String.toList_append, String.toList_ofList, begins, begins', List.append_assoc,
    List.cons_append, List.nil_append] at chars
  obtain ⟨blanks, rest⟩ := replicate_append_inj hc hc' chars
  have depths : x.depth = y.depth := by omega
  have labels : x.tree.label = y.tree.label :=
    String.toList_inj.1 (List.cons.inj (List.cons.inj rest).2).2
  exact Prod.ext depths labels

/-- Below the root the lines determine depths and labels. -/
theorem map_mark_of_map_line {xs ys : List Item} (hx : ∀ x ∈ xs, 1 ≤ x.depth)
    (hy : ∀ y ∈ ys, 1 ≤ y.depth) (e : xs.map line = ys.map line) : xs.map mark = ys.map mark := by
  induction xs generalizing ys with
  | nil =>
    rw [List.map_eq_nil_iff.1 e.symm]
  | cons x xs ih =>
    obtain ⟨y, ys, rfl, first, others⟩ := List.map_eq_cons_iff.1 e.symm
    rw [List.forall_mem_cons] at hx hy
    rw [List.map_cons, List.map_cons, of_line hx.1 hy.1 first.symm, ih hx.2 hy.2 others.symm]

end Item

mutual

/-- Nothing in a tree stands nearer to the root than the tree. -/
theorem le_depth_of_mem_items : (t : Tree) → ∀ {depth last}, ∀ x ∈ t.items depth last,
    depth ≤ x.depth
  | leaf _, _, _, x, hx => by
    rw [items, List.mem_singleton] at hx
    rw [hx]
  | node _ cs, depth, _, x, hx => by
    rw [items, List.mem_cons] at hx
    rcases hx with rfl | below
    · exact le_rfl
    · exact depth.le_succ.trans (le_depth_of_mem_itemsAll cs x below)

/-- No item stands nearer to the root than where the trees begin. -/
theorem le_depth_of_mem_itemsAll : (cs : List Tree) → ∀ {depth}, ∀ x ∈ itemsAll depth cs,
    depth ≤ x.depth
  | [], _, _, hx => absurd hx List.not_mem_nil
  | c :: cs, _, x, hx => by
    rw [itemsAll, List.mem_append] at hx
    exact hx.elim (le_depth_of_mem_items c x) (le_depth_of_mem_itemsAll cs x)

end

/-! ### Lines -/

mutual

/-- The lines drawn of a tree are those of its items. The induction is on the tree. -/
theorem outlineLines_eq : (t : Tree) → ∀ (depth : Nat) last,
    t.outlineLines depth (Item.connector ⟨depth, last, t⟩) = (t.items depth last).map Item.line
  | leaf _, _, _ => rfl
  | node name cs, depth, last => by
    rw [outlineLines, items, List.map_cons]
    exact congrArg _ (childLines_eq cs depth)

/-- The lines drawn of children are those of their items. -/
theorem childLines_eq : (cs : List Tree) → ∀ depth : Nat,
    childLines (depth + 1) cs = (itemsAll (depth + 1) cs).map Item.line
  | [], _ => by rw [childLines, itemsAll, List.map_nil]
  | [c], depth => by
    rw [childLines, itemsAll, itemsAll, List.append_nil]
    exact outlineLines_eq c (depth + 1) true
  | c :: d :: cs, depth => by
    rw [childLines, itemsAll, List.map_append, childLines_eq (d :: cs)]
    exact congrArg (· ++ _) (outlineLines_eq c (depth + 1) false)

end

/-- The lines of the outline of a drawable tree are those of its items. -/
theorem Drawable.lines_outline {t : Tree} (h : t.Drawable) :
    Text.lines t.outline = (t.items 0 true).map Item.line := by
  have all : t.outline = "\n".intercalate ((t.items 0 true).map Item.line) :=
    congrArg _ (outlineLines_eq t 0 true)
  rw [all, Text.lines_intercalate]
  · rw [List.forall_mem_map]
    refine fun x hx => Item.newline_notMem_line (h x.tree ?_)
    rw [← map_tree_items t 0 true]
    exact List.mem_map_of_mem hx
  · rw [items_eq, List.map_cons]
    exact List.cons_ne_nil _ _

/-! ### Reading an outline -/

/-- Every leaf and node of several trees is legible. -/
def DrawableAll (cs : List Tree) : Prop :=
  ∀ u ∈ subtreesAll cs, u.Legible

/-- A tree is drawable exactly if it is legible and its children are drawable. -/
theorem drawable_iff {t : Tree} : t.Drawable ↔ t.Legible ∧ DrawableAll t.children := by
  rw [Drawable, subtrees_eq, List.forall_mem_cons, DrawableAll]

/-- Several trees are drawable exactly if the first and the others are. -/
theorem drawableAll_cons {c : Tree} {cs : List Tree} :
    DrawableAll (c :: cs) ↔ c.Drawable ∧ DrawableAll cs := by
  rw [DrawableAll, subtreesAll, List.forall_mem_append, Drawable, DrawableAll]

/-- The marks of several trees are that of the first, those of its children one level deeper, and
those of the others. -/
theorem map_mark_itemsAll_cons (depth : Nat) (c : Tree) (cs : List Tree) :
    (itemsAll depth (c :: cs)).map Item.mark = (depth, c.label) ::
      ((itemsAll (depth + 1) c.children).map Item.mark ++ (itemsAll depth cs).map Item.mark) := by
  rw [itemsAll, items_eq, List.map_append, List.map_cons, List.cons_append, Item.mark]

/-- The first of some marks, if there is one, stands nearer to the root than a depth. -/
def Shallower (depth : Nat) (rest : List (Nat × String)) : Prop :=
  ∀ m ∈ rest.head?, m.1 < depth

/-- After the children of a tree there are its siblings, or what follows these. -/
theorem Shallower.siblings {depth : Nat} {rest : List (Nat × String)} (h : Shallower depth rest)
    (cs : List Tree) : Shallower (depth + 1) ((itemsAll depth cs).map Item.mark ++ rest) := by
  cases cs with
  | nil =>
    rw [itemsAll, List.map_nil, List.nil_append]
    exact fun m hm => Nat.lt_succ_of_lt (h m hm)
  | cons c cs =>
    rw [map_mark_itemsAll_cons]
    rintro m ⟨⟩
    exact Nat.lt_succ_self depth

/-- No mark stands deeper where there is none. -/
theorem shallower_nil (depth : Nat) : Shallower depth [] :=
  nofun

/-- A tree that is drawn at a depth is not what stands nearer to the root. -/
theorem Shallower.ne {depth : Nat} {rest : List (Nat × String)} (h : Shallower depth rest)
    (c : Tree) (cs : List Tree) (others : List (Nat × String)) :
    rest ≠ (itemsAll depth (c :: cs)).map Item.mark ++ others := by
  rintro rfl
  rw [map_mark_itemsAll_cons] at h
  exact lt_irrefl _ (h _ rfl)

/-- The children of a tree are no larger than the tree. -/
theorem sizeOf_children (t : Tree) : sizeOf t.children ≤ sizeOf t := by
  cases t with
  | leaf => simp [children]
  | node => simp [children]

/-- The marks of trees at a depth tell these trees, up to the first mark that stands nearer to the
root. The first mark tells the label of the first tree; what follows it at a greater depth are the
marks of its children, and what follows these are the marks of the other trees. -/
theorem eq_of_marks {depth : Nat} {rest rest' : List (Nat × String)} (h : Shallower depth rest)
    (h' : Shallower depth rest') : (cs ds : List Tree) → DrawableAll cs → DrawableAll ds →
    (itemsAll depth cs).map Item.mark ++ rest = (itemsAll depth ds).map Item.mark ++ rest' →
    cs = ds ∧ rest = rest'
  | [], [], _, _, e => ⟨rfl, e⟩
  | [], d :: ds, _, _, e => absurd e (h.ne d ds rest')
  | c :: cs, [], _, _, e => absurd e.symm (h'.ne c cs rest)
  | c :: cs, d :: ds, hc, hd, e => by
    rw [drawableAll_cons, drawable_iff] at hc hd
    rw [map_mark_itemsAll_cons, map_mark_itemsAll_cons, List.cons_append, List.cons_append,
      List.cons.injEq, List.append_assoc, List.append_assoc] at e
    obtain ⟨first, later⟩ := e
    obtain ⟨children, others⟩ := eq_of_marks (h.siblings cs) (h'.siblings ds) c.children d.children
      hc.1.2 hd.1.2 later
    obtain ⟨rfl, rest⟩ := eq_of_marks h h' cs ds hc.2 hd.2 others
    have labels : c.label = d.label := congrArg Prod.snd first
    exact ⟨congrArg (· :: cs) (hc.1.1.eq_of_label hd.1.1 labels children), rest⟩
termination_by cs => sizeOf cs
decreasing_by
  · have := sizeOf_children c
    simp
    omega
  · simp

/-- Drawable trees with one outline are one tree. -/
theorem Drawable.eq_of_outline {t u : Tree} (ht : t.Drawable) (hu : u.Drawable)
    (e : t.outline = u.outline) : t = u := by
  have lines := ht.lines_outline
  rw [e, hu.lines_outline, items_eq, items_eq, List.map_cons, List.map_cons, List.cons.injEq]
    at lines
  obtain ⟨first, later⟩ := lines
  rw [drawable_iff] at ht hu
  -- the root stands on the first line, without a connector
  have labels : u.label = t.label := by
    simpa [Item.line, Item.connector] using first
  have marks := Item.map_mark_of_map_line (le_depth_of_mem_itemsAll u.children)
    (le_depth_of_mem_itemsAll t.children) later
  obtain ⟨children, -⟩ := eq_of_marks (shallower_nil 1) (shallower_nil 1) u.children t.children
    hu.2 ht.2 (congrArg (· ++ []) marks)
  exact ht.1.eq_of_label hu.1 labels.symm children.symm

end Tree

/-- The outline of a drawable tree has one line for each of its leaves and nodes, each before its
children: three blanks for every level, then below the root a connector that tells whether it is the
last child, then its label. No other drawable tree has the same outline. -/
theorem outline_lossless {t : Tree} (drawable : t.Drawable) :
    Text.lines t.outline = (t.items 0 true).map Tree.Item.line ∧
    (t.items 0 true).map Tree.Item.tree = t.subtrees ∧
    ∀ u : Tree, u.Drawable → t.outline = u.outline → t = u :=
  ⟨drawable.lines_outline, t.map_tree_items 0 true, fun _ => drawable.eq_of_outline⟩

/-- A node whose name looks like a childless node. -/
def misleadingTree : Tree :=
  .node "A ()" [.node "A" [], .node "├─ B" [.leaf "v_x"]]

/-- The outline of the tree is as it looks, with one name that ends like a childless node and one
that begins like a child. Nevertheless no other drawable tree has this outline. -/
theorem outline_lossless_misleading :
    Text.lines misleadingTree.outline =
      ["A ()", "   ├─ A ()", "   └─ ├─ B", "      └─ v_x"] ∧
    ∀ u : Tree, u.Drawable → misleadingTree.outline = u.outline → misleadingTree = u := by
  obtain ⟨lines, -, only⟩ := outline_lossless (t := misleadingTree) (by decide)
  exact ⟨lines.trans (by decide), only⟩

end TreeGrammar
