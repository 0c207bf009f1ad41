import Mathlib
import TreeGrammar.Proofs.Trees.Totality

/-!
# Fields of recorded nodes

A node with field names of its own is recorded field by field: its name under `type`, then each of
its children under its field name. The number of names is checked, the names themselves are not, and
a field that is set again keeps its place and loses its value. So the record has one field for each
name that is given, with what was given for it last; it keeps the name of the node and every child
exactly if no field name repeats another and none is `type`.

* `Datum.setAll`: a record with some fields, set one after another.
* `Tree.Meets`: the trees that are turned into data for the sake of a tree.
* `Grammar.Named`: a node is recorded under field names of its own.
* `Tree.Recorded`: what such a node is recorded as.
* `toDatum_fields`: all such nodes are recorded so, and nothing is lost where names are apart.
-/

namespace TreeGrammar

/-! ### Setting fields -/

namespace Datum

/-- A record with some fields, set one after another. -/
def setAll (given : List (String × Datum)) : List (String × Datum) :=
  given.foldl (fun acc (key, d) => set acc key d) []

/-- Equation lemma: the last field is set after the others. -/
theorem setAll_append_singleton (given : List (String × Datum)) (key : String) (d : Datum) :
    setAll (given ++ [(key, d)]) = set (setAll given) key d := by
  rw [setAll, List.foldl_append]
  rfl

/-- A new field comes behind the others. -/
theorem set_of_notMem {fields : List (String × Datum)} {key : String} (d : Datum)
    (new : key ∉ fields.map (·.1)) : set fields key d = fields ++ [(key, d)] := by
  induction fields with
  | nil => rfl
  | cons field rest ih =>
    rw [List.map_cons, List.mem_cons, not_or] at new
    rw [set, if_neg (Ne.symm new.1), ih new.2, List.cons_append]

/-- A field that there is already keeps its place. -/
theorem keys_set_of_mem {fields : List (String × Datum)} {key : String} (d : Datum)
    (known : key ∈ fields.map (·.1)) : (set fields key d).map (·.1) = fields.map (·.1) := by
  induction fields with
  | nil => exact absurd known List.not_mem_nil
  | cons field rest ih =>
    rw [set]
    by_cases same : field.1 = key
    · rw [if_pos same, List.map_cons, List.map_cons]
    · rw [List.map_cons, List.mem_cons] at known
      rw [if_neg same, List.map_cons, List.map_cons, ih (known.resolve_left (Ne.symm same))]

/-- A record has a field for each name, where the name is given first. -/
theorem keys_setAll (given : List (String × Datum)) :
    (setAll given).map (·.1) = (given.map (·.1)).eraseDups := by
  induction given using List.reverseRecOn with
  | nil => rfl
  | append_singleton given field ih =>
    obtain ⟨key, d⟩ := field
    rw [setAll_append_singleton, List.map_append, List.eraseDups_append, ← ih]
    by_cases known : key ∈ given.map (·.1)
    · rw [keys_set_of_mem d (by rwa [ih, List.mem_eraseDups])]
      simp [List.removeAll, known]
    · rw [set_of_notMem d (by rwa [ih, List.mem_eraseDups]), List.map_append]
      simp [List.removeAll, known, List.eraseDups_cons]

/-- A field holds what was given for it last. -/
theorem lookup_setAll (given : List (String × Datum)) (key : String) :
    (setAll given).lookup key = given.reverse.lookup key := by
  induction given using List.reverseRecOn with
  | nil => rfl
  | append_singleton given field ih =>
    obtain ⟨other, d⟩ := field
    rw [setAll_append_singleton, List.reverse_append, List.reverse_singleton,
      List.singleton_append, List.lookup_cons]
    by_cases same : key = other
    · rw [same, lookup_set_self, beq_self_eq_true]
    · rw [lookup_set_of_ne d same, ih, beq_eq_false_iff_ne.2 same]

/-- Fields that are given once each are those of the record. -/
theorem setAll_of_nodup {given : List (String × Datum)} (apart : (given.map (·.1)).Nodup) :
    setAll given = given := by
  induction given using List.reverseRecOn with
  | nil => rfl
  | append_singleton given field ih =>
    rw [List.map_append, List.map_singleton, List.nodup_append_comm, List.singleton_append,
      List.nodup_cons] at apart
    obtain ⟨new, apart⟩ := apart
    rw [setAll_append_singleton, ih apart, set_of_notMem _ new]

/-- There are as many fields as are given exactly if each is given once. A field that is given again
takes no new place. -/
theorem length_setAll_eq_iff {given : List (String × Datum)} :
    (setAll given).length = given.length ↔ (given.map (·.1)).Nodup := by
  refine ⟨fun length => ?_, fun apart => by rw [setAll_of_nodup apart]⟩
  have short : (given.map (·.1)).eraseDups.length = (given.map (·.1)).length := by
    rw [← keys_setAll, List.length_map, List.length_map, length]
  rw [← (eraseDupsBy_sublist _ _).eq_of_length short]
  exact Bindings.nodup_eraseDups _

/-- The fields of the record are those given exactly if each is given once. -/
theorem setAll_eq_self_iff {given : List (String × Datum)} :
    setAll given = given ↔ (given.map (·.1)).Nodup :=
  ⟨fun same => length_setAll_eq_iff.1 (congrArg _ same), setAll_of_nodup⟩

/-- A datum is an item of a list, or the value of a field. -/
inductive Part : Datum → Datum → Prop
  | item {items : List Datum} {d : Datum} (member : d ∈ items) : Part (.list items) d
  | field {fields : List (String × Datum)} {key : String} {d : Datum}
      (member : (key, d) ∈ fields) : Part (.record fields) d

/-- A datum is another one or within it. -/
def Holds : Datum → Datum → Prop :=
  Relation.ReflTransGen Part

end Datum

/-! ### Trees that are met -/

namespace Tree

/-- A tree is turned into data for the sake of another one: it is an element of a chain, or a child
of another node. -/
inductive Part (g : Grammar) : Tree → Tree → Prop
  | element {cell : String} {cs xs : List Tree} {x : Tree} (isCell : g.isListCell cell = true)
      (chain : (node cell cs).elements? = .ok xs) (member : x ∈ xs) : Part g (node cell cs) x
  | child {name : String} {cs : List Tree} {c : Tree} (other : ¬g.isListCell name = true)
      (member : c ∈ cs) : Part g (node name cs) c

/-- A tree is met on the way through another one. -/
def Meets (g : Grammar) : Tree → Tree → Prop :=
  Relation.ReflTransGen (Part g)

end Tree

/-- A node is recorded under field names of its own. -/
structure Grammar.Named (g : Grammar) (fields : FieldNames) (name : String) (cs : List Tree)
    (names : List String) : Prop where
  other : ¬g.isListCell name = true
  inner : cs ≠ []
  entry : fields.lookup name = some (some names)

/-- What a node with field names is recorded as: its name under `type` and its children under their
field names, but for those that are given once more. -/
structure Tree.Recorded (g : Grammar) (fields : FieldNames) (name : String) (cs : List Tree)
    (names : List String) (ds : List Datum) (record : List (String × Datum)) : Prop where
  each : List.Forall₂ (fun c d => c.toDatum g fields = .ok d) cs ds
  length : names.length = cs.length
  made : (Tree.node name cs).toDatum g fields = .ok (.record record)
  keys : record.map (·.1) = ("type" :: names).eraseDups
  last : ∀ key, record.lookup key = (("type", .text name) :: names.zip ds).reverse.lookup key

section

variable {g : Grammar} {fields : FieldNames}

/-- What is made of the data of several trees is made of the data of each. -/
theorem Tree.exists_of_convertAll_map {ts : List Tree} {f : List Datum → Datum} {d : Datum}
    (converted : (Tree.convertAll g.listCells fields ts).map f = .ok d) :
    ∃ ds, List.Forall₂ (fun t d => t.toDatum g fields = .ok d) ts ds ∧ d = f ds := by
  rcases all : Tree.convertAll g.listCells fields ts with e | ds
  · rw [all] at converted
    cases converted
  · rw [all] at converted
    cases converted
    exact ⟨ds, Tree.convertAll_eq_ok_iff.1 all, rfl⟩

namespace Grammar.Named

variable {name : String} {cs : List Tree} {names : List String} (h : g.Named fields name cs names)
include h

/-- A node that is recorded has as many field names as children, and the fields are set one after
another, the name of the node first. -/
theorem toDatum_cases {d : Datum} (converted : (Tree.node name cs).toDatum g fields = .ok d) :
    names.length = cs.length ∧ ∃ ds, List.Forall₂ (fun c d => c.toDatum g fields = .ok d) cs ds ∧
      d = .record (Datum.setAll (("type", .text name) :: names.zip ds)) := by
  rw [Tree.toDatum, Tree.convert_named h.other h.inner h.entry] at converted
  split at converted
  · cases converted
  · next agree => exact ⟨not_not.1 agree, Tree.exists_of_convertAll_map converted⟩

/-- Such a node becomes a record, which has a field for its name and one for each child exactly if
no field is given twice. -/
theorem recorded {d : Datum} (converted : (Tree.node name cs).toDatum g fields = .ok d) :
    ∃ ds record, d = .record record ∧ Tree.Recorded g fields name cs names ds record ∧
      (record.length = names.length + 1 ↔ ("type" :: names).Nodup) ∧
      (record = ("type", .text name) :: names.zip ds ↔ ("type" :: names).Nodup) := by
  obtain ⟨agree, ds, each, rfl⟩ := h.toDatum_cases converted
  have length : names.length = ds.length := agree.trans each.length_eq
  have keys : (("type", Datum.text name) :: names.zip ds).map (·.1) = "type" :: names := by
    rw [List.map_cons, List.map_fst_zip length.le]
  have size : (("type", Datum.text name) :: names.zip ds).length = names.length + 1 := by
    rw [List.length_cons, List.length_zip, ← length, min_self]
  refine ⟨ds, _, rfl, ⟨each, agree, converted, ?_, Datum.lookup_setAll _⟩, ?_, ?_⟩
  · rw [Datum.keys_setAll, keys]
  · rw [← size, Datum.length_setAll_eq_iff, keys]
  · rw [Datum.setAll_eq_self_iff, keys]

end Grammar.Named

namespace Tree

/-- No field is given twice for a node. -/
def Apart (g : Grammar) (fields : FieldNames) (t : Tree) : Prop :=
  ∀ name cs names, t = node name cs → g.Named fields name cs names → ("type" :: names).Nodup

/-- A part of a tree is turned into data with it, which its data hold if no field is given twice. -/
theorem Part.exists_toDatum {t u : Tree} (part : Part g t u) {d : Datum}
    (converted : t.toDatum g fields = .ok d) :
    ∃ e, u.toDatum g fields = .ok e ∧ (t.Apart g fields → d.Holds e) := by
  cases part with
  | element isCell chain member =>
    rw [toDatum, convert_cell isCell chain] at converted
    obtain ⟨ds, each, rfl⟩ := exists_of_convertAll_map converted
    obtain ⟨e, he, done⟩ := exists_of_forall₂_left each u member
    exact ⟨e, done, fun _ => .single (.item he)⟩
  | @child name cs c other member =>
    have inner : cs ≠ [] := List.ne_nil_of_mem member
    by_cases entry : ∃ names, fields.lookup name = some (some names)
    · obtain ⟨names, entry⟩ := entry
      have named : g.Named fields name cs names := ⟨other, inner, entry⟩
      obtain ⟨ds, record, rfl, recorded, -, whole⟩ := named.recorded converted
      obtain ⟨e, he, done⟩ := exists_of_forall₂_left recorded.each u member
      refine ⟨e, done, fun apart => .single ?_⟩
      rw [whole.2 (apart name cs names rfl named)]
      rw [← List.map_snd_zip (recorded.length.trans recorded.each.length_eq).ge, List.mem_map] at he
      obtain ⟨⟨key, _⟩, given, rfl⟩ := he
      exact .field (List.mem_cons_of_mem _ given)
    · rw [not_exists] at entry
      rw [toDatum, convert_plain other inner entry] at converted
      obtain ⟨ds, each, rfl⟩ := exists_of_convertAll_map converted
      obtain ⟨e, he, done⟩ := exists_of_forall₂_left each u member
      have children : Datum.Part (.record [("type", .text name), ("children", .list ds)])
          (.list ds) := .field (List.mem_cons_of_mem _ List.mem_cons_self)
      exact ⟨e, done, fun _ => .tail (.single children) (.item he)⟩

/-- All trees that are met are turned into data. -/
theorem Meets.exists_toDatum {t u : Tree} (met : t.Meets g u) {d : Datum}
    (converted : t.toDatum g fields = .ok d) :
    ∃ e, u.toDatum g fields = .ok e ∧
      ((∀ v, t.Meets g v → v.Apart g fields) → d.Holds e) := by
  induction met with
  | refl => exact ⟨d, converted, fun _ => .refl⟩
  | tail earlier part ih =>
    obtain ⟨e, done, held⟩ := ih
    obtain ⟨e', done', held'⟩ := part.exists_toDatum done
    exact ⟨e', done', fun apart => (held apart).trans (held' (apart _ earlier))⟩

end Tree

end

/-- If a tree is turned into data, so is every tree that is met on the way. A node with field names
of its own, which are as many as its children, is recorded under all of them, and under `type` by
its name; where a field is given again only what is given last is kept. So the record has a field
for the name and one for every child, and these are what it holds, exactly if no field name repeats
and none is `type`. Where that is so for all nodes that are met, nothing is lost. -/
theorem toDatum_fields {g : Grammar} {fields : FieldNames} {t : Tree} {d : Datum}
    (converted : t.toDatum g fields = .ok d) :
    (∀ u, t.Meets g u → ∃ e, u.toDatum g fields = .ok e) ∧
    (∀ name cs names, t.Meets g (.node name cs) → g.Named fields name cs names →
      ∃ ds record, Tree.Recorded g fields name cs names ds record ∧
        (record.length = names.length + 1 ↔ ("type" :: names).Nodup) ∧
        (record = ("type", .text name) :: names.zip ds ↔ ("type" :: names).Nodup)) ∧
    ((∀ u, t.Meets g u → u.Apart g fields) →
      ∀ u, t.Meets g u → ∃ e, u.toDatum g fields = .ok e ∧ d.Holds e) := by
  refine ⟨fun u met => ?_, fun name cs names met named => ?_, fun apart u met => ?_⟩
  · obtain ⟨e, done, -⟩ := met.exists_toDatum converted
    exact ⟨e, done⟩
  · obtain ⟨e, done, -⟩ := met.exists_toDatum converted
    obtain ⟨ds, record, -, recorded, counts⟩ := named.recorded done
    exact ⟨ds, record, recorded, counts⟩
  · obtain ⟨e, done, held⟩ := met.exists_toDatum converted
    exact ⟨e, done, held apart⟩

/-- A tag in a list within a node with field names is kept, and so are both children of the node. -/
theorem toDatum_fields_listed :
    ∃ d, listedTree.toDatum (.ofBindings listedBindings) [("M", some ["head", "rest"])] = .ok d ∧
      d.Holds (.text "v_x") ∧
      ∃ record, d = .record record ∧ record.length = 3 := by
  have converted : listedTree.toDatum (.ofBindings listedBindings)
      [("M", some ["head", "rest"])] = .ok (.record [("type", .text "M"), ("head", .text "v_y"),
        ("rest", .list [.text "v_x", .text "v_x"])]) := by cbv
  have named : (Grammar.ofBindings listedBindings).Named [("M", some ["head", "rest"])] "M"
      listedTree.children ["head", "rest"] := ⟨by decide, List.cons_ne_nil _ _, rfl⟩
  have inner : listedTree.Meets (.ofBindings listedBindings) (.leaf "v_x") :=
    .tail (.single (.child (by decide) (List.mem_cons_of_mem _ List.mem_cons_self)))
      (.element (by decide) (Tree.elements?_ofElements "t_1" [.leaf "v_x", .leaf "v_x"])
        List.mem_cons_self)
  have apart : ∀ u : Tree, u.Apart (.ofBindings listedBindings) [("M", some ["head", "rest"])] := by
    rintro u name cs names rfl ⟨-, -, entry⟩
    rw [List.lookup_cons] at entry
    split at entry
    · cases entry
      decide
    · cases entry
  obtain ⟨-, records, held⟩ := toDatum_fields converted
  obtain ⟨ds, record, recorded, length, -⟩ := records "M" _ _ .refl named
  obtain ⟨e, done, within⟩ := held (fun u _ => apart u) _ inner
  rw [Tree.toDatum, Tree.convert, if_neg (by decide)] at done
  cases done
  refine ⟨_, converted, within, record, ?_, length.2 (by decide)⟩
  exact Except.ok.inj (converted.symm.trans recorded.made)

/-- The record of a node with three children that has lost its name and one child. -/
def overwrittenRecord : List (String × Datum) :=
  [("type", .text "v_x"), ("x", .text "v_z")]

/-- There are as many field names as children, but one of them is `type` and another repeats. -/
theorem toDatum_overwrites :
    (Tree.node "M" [.leaf "v_x", .leaf "v_y", .leaf "v_z"]).toDatum
        (.ofBindings [("M", .product ["v_x", "v_y", "v_z"])]) [("M", some ["type", "x", "x"])] =
      .ok (.record overwrittenRecord) ∧
    overwrittenRecord.length ≠ ["type", "x", "x"].length + 1 ∧
    overwrittenRecord.lookup "type" ≠ some (.text "M") := by
  refine ⟨by cbv, by decide, fun kept => ?_⟩
  have same : "v_x" = "M" := Datum.text.inj (Option.some.inj kept)
  exact absurd same (by decide)

end TreeGrammar
