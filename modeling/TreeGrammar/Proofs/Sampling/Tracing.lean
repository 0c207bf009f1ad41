import TreeGrammar.Proofs.Sampling.Choice
import TreeGrammar.Sampling.Growth

/-!
# Growing with the choices recorded

A tree forgets which members of unions it was taken from. To say how often a derivation is followed,
trees are grown here a second time in the same way, with the place of each member that is drawn
written down. Forgetting the places gives back the computation that grows trees, draw for draw.

* `Trace`: what is grown, with the places of the members that were drawn.
* `Recurrence.traceRef`, `Recurrence.traceSequence`: growing with the choices recorded.
* `Recurrence.growing_induction`: induction over growing, whether choices are recorded or not.
* `Recurrence.growRef_eq_and_growSequence_eq`: forgetting the choices gives what is grown without
  recording any.
-/

namespace TreeGrammar

/-! ### Running on a table -/

namespace Grow

variable {α β : Type}

/-- Runs a computation on a table. What is left is the drawing. -/
def on (x : Grow α) (table : Table) : Draw (Except Failure α × Table) :=
  x.run.run table

/-- Computations that do the same on every table are the same. -/
theorem ext {x y : Grow α} (h : ∀ table, x.on table = y.on table) : x = y :=
  funext h

/-- Equation lemma: a result alone draws nothing and leaves the table as it is. -/
@[simp] theorem on_pure (a : α) (table : Table) :
    (pure a : Grow α).on table = .done (.ok a, table) := rfl

/-- Equation lemma: a failure draws nothing and leaves the table as it is. -/
@[simp] theorem on_throw (e : Failure) (table : Table) :
    (throw e : Grow α).on table = .done (.error e, table) := rfl

/-- Equation lemma: what follows runs on the table left behind, and after a failure nothing does. -/
theorem on_bind (x : Grow α) (f : α → Grow β) (table : Table) :
    (x >>= f).on table = x.on table >>= fun out =>
      match out.1 with
      | .ok a => (f a).on out.2
      | .error e => .done (.error e, out.2) := by
  change ((x.run >>= ExceptT.bindCont f).run table : Draw (Except Failure β × Table)) = _
  rw [StateT.run_bind]
  congr 1
  funext out
  rcases out with ⟨e | a, table'⟩
  · rfl
  · rfl

/-- What is made of a result is made of it behind the draws, and the table is the same. -/
theorem on_map (f : α → β) (x : Grow α) (table : Table) :
    (f <$> x).on table = (fun out => (out.1.map f, out.2)) <$> x.on table := by
  rw [← bind_pure_comp, ← bind_pure_comp, on_bind]
  congr 1
  funext out
  rcases out with ⟨e | a, table'⟩
  · rfl
  · rfl

/-- Equation lemma: a count draws nothing. -/
theorem on_ofCount (x : CountM α) (table : Table) :
    (ofCount x).on table = .done (x.run.run table) := rfl

/-- Counting on the way draws nothing. -/
theorem on_ofCount_bind (x : CountM α) (f : α → Grow β) (table : Table) :
    (ofCount x >>= f).on table =
      match x.run.run table with
      | (.ok a, table') => (f a).on table'
      | (.error e, table') => .done (.error e, table') := by
  rw [on_bind, on_ofCount]
  rcases x.run.run table with ⟨e | a, table'⟩
  · rfl
  · rfl

/-- Equation lemma: a draw leaves the table as it is. -/
theorem on_ofDraw (x : ExceptT Failure Draw α) (table : Table) :
    (ofDraw x).on table = (fun a => (a, table)) <$> x.run := by
  rw [← bind_pure_comp]
  rfl

/-- What is made of what is drawn has no influence on the drawing. -/
theorem ofDraw_map (f : α → β) (x : ExceptT Failure Draw α) :
    ofDraw (f <$> x) = f <$> ofDraw x := by
  apply ext
  intro table
  rw [on_map, on_ofDraw, on_ofDraw, ExceptT.run_map, Functor.map_map, Functor.map_map]

end Grow

/-! ### Traces -/

/-- A sample in which the places of the members that were drawn are recorded. -/
inductive Trace where
  | absent
  | leaf (tag : String)
  | node (name : String) (children : List Trace)
  | choice (place : Nat) (member : Trace)

namespace Trace

mutual

/-- The sample, without the places. -/
def sample : Trace → Sample
  | absent => .absent
  | leaf tag => .leaf tag
  | node name children => .node name (samples children)
  | choice _ member => member.sample

/-- Several samples, without the places. -/
def samples : List Trace → List Sample
  | [] => []
  | t :: ts => t.sample :: samples ts

end

/-- A recorded node is known by its children. -/
theorem node_injective (name : String) : Function.Injective (node name) := by
  intro ts ts' e
  exact (node.inj e).2

end Trace

namespace Recurrence

variable (c : Recurrence CountM)

/-- The members of a union with their places. -/
def placed (weights : List (Ref × Int)) : List ((Nat × Ref) × Int) :=
  weights.zipIdx.map fun entry => ((entry.2, entry.1.1), entry.1.2)

set_option linter.unusedVariables false in
mutual

/-- A tree of size `n` for a reference, with the choices recorded. -/
def traceRef (trail : Trail) (r : Ref) (n : Nat) : Grow Trace :=
  match r with
  | .inline t => throw (.undefinedName t.canonical none)
  | .deferred b => throw (.undefinedName b.mark none)
  | .name s =>
    if isTag s then pure (if n = 1 then .leaf s else .absent)
    else
      match found : c.rules.lookup s with
      | none => throw (.undefinedName s none)
      | some rule => do
        let count ← Grow.ofCount (c.countRule rule n)
        if count = 0 then pure .absent
        else
          match rule.type with
          | .value tag => pure (.leaf tag)
          | .product [] => pure (.node s [])
          | .product items =>
            match c.mode with
            | .nodes =>
              if positive : n = 0 then pure .absent
              else do
                let children ← traceSequence trail.afresh items (n - 1)
                pure (.node s children)
            | .leaves =>
              match entered : trail.enter rule.key with
              | none => throw (.inconsistent (.cycle rule.key n))
              | some trail' => do
                let children ← traceSequence trail' items n
                pure (.node s children)
          | .union items =>
            match entered : trail.enter rule.key with
            | none => throw (.inconsistent (.cycle rule.key n))
            | some trail' => do
              let weights ← Grow.ofCount (c.memberWeights n items)
              match ← Grow.ofDraw (Choice.draw (placed weights)) with
              | some member => do
                let t ← traceRef trail' member.2 n
                pure (.choice member.1 t)
              | none => throw (.undefinedName "None" none)
termination_by (n, trail.spare, (unseen c.rules.keys trail.active).length, 0, 0)
decreasing_by
  · exact Prod.Lex.left _ _ (by omega)
  · rcases Trail.lt_of_enter (Rules.key_mem_keys found) entered with h | ⟨e, h⟩
    · exact Prod.Lex.right _ (Prod.Lex.left _ _ h)
    · rw [e]
      exact Prod.Lex.right _ (Prod.Lex.right _ (Prod.Lex.left _ _ h))
  · rcases Trail.lt_of_enter (Rules.key_mem_keys found) entered with h | ⟨e, h⟩
    · exact Prod.Lex.right _ (Prod.Lex.left _ _ h)
    · rw [e]
      exact Prod.Lex.right _ (Prod.Lex.right _ (Prod.Lex.left _ _ h))

/-- Trees of size `n` together, one for each item, with the choices recorded. -/
def traceSequence (trail : Trail) (items : List Ref) (n : Nat) : Grow (List Trace) :=
  match items with
  | [] => pure []
  | [r] => do
    let t ← traceRef trail r n
    pure [t]
  | head :: second :: rest => do
    let weights ← Grow.ofCount (c.splitWeights head second rest n 0)
    match ← Grow.ofDraw (Choice.draw weights) with
    | none => throw (.inconsistent (.noSplit n))
    | some split => do
      let first ← traceRef trail.afresh head (split.1 + 1)
      let others ← traceSequence trail.afresh (second :: rest) (n - (split.1 + 1))
      pure (first :: others)
termination_by (n, trail.spare, (unseen c.rules.keys trail.active).length, 1, items.length)
decreasing_by
  · exact Prod.Lex.right _ (Prod.Lex.right _ (Prod.Lex.right _ (Prod.Lex.left _ _ (by decide))))
  · exact Prod.Lex.left _ _ (by have := split.2; omega)
  · exact Prod.Lex.left _ _ (by have := split.2; omega)

end

/-! ### Induction over growing -/

/-- Induction over growing: a case for each kind of reference, and one each for no item, a single
one and several. The recursion is the same whether the choices are recorded or not. -/
theorem growing_induction {tree : Trail → Ref → Nat → Prop} {trees : Trail → List Ref → Nat → Prop}
    (nameless : ∀ trail r n, (∀ s, r ≠ Ref.name s) → tree trail r n)
    (tag : ∀ trail s n, isTag s = true → tree trail (.name s) n)
    (unbound : ∀ trail s n, ¬isTag s = true → c.rules.lookup s = none → tree trail (.name s) n)
    (bound : ∀ trail s n rule, ¬isTag s = true → c.rules.lookup s = some rule →
      (∀ items, n ≠ 0 → trees trail.afresh items (n - 1)) →
      (∀ trail' items, trail.enter rule.key = some trail' → trees trail' items n) →
      (∀ trail' r, trail.enter rule.key = some trail' → tree trail' r n) → tree trail (.name s) n)
    (empty : ∀ trail n, trees trail [] n)
    (single : ∀ trail r n, tree trail r n → trees trail [r] n)
    (several : ∀ trail head second rest n,
      (∀ j, j + 1 + (rest.length + 1) ≤ n → tree trail.afresh head (j + 1)) →
      (∀ j, j + 1 + (rest.length + 1) ≤ n →
        trees trail.afresh (second :: rest) (n - (j + 1))) →
      trees trail (head :: second :: rest) n) :
    (∀ trail r n, tree trail r n) ∧ ∀ trail items n, trees trail items n :=
  growRef.mutual_induct c tree trees
    (fun trail n _ => nameless trail _ n nofun)
    (fun trail n _ => nameless trail _ n nofun)
    (fun trail n s ht => tag trail s n ht)
    (fun trail n s ht found => unbound trail s n ht found)
    (fun trail n s ht rule found smaller same members =>
      bound trail s n rule ht found smaller (fun trail' items => same items trail')
        fun trail' r entered => members trail' entered r)
    empty
    (fun trail n r ih => single trail r n ih)
    (fun trail n head second rest ih₁ ih₂ =>
      several trail head second rest n (fun j fits => ih₁ ⟨j, fits⟩) fun j fits => ih₂ ⟨j, fits⟩)

/-! ### One equation for each way a tree is grown -/

/-- A tree for a name that is bound, put together from its items. There is none if the count is
zero; otherwise the name's type decides. -/
def growBound {α : Type} (absent : α) (leaf : String → α) (node : List α → α)
    (sequence : Trail → List Ref → Nat → Grow (List α)) (member : Trail → List Ref → Grow α)
    (trail : Trail) (rule : Rule) (n : Nat) : Grow α := do
  let count ← Grow.ofCount (c.countRule rule n)
  if count = 0 then pure absent
  else
    match rule.type with
    | .value tag => pure (leaf tag)
    | .product [] => pure (node [])
    | .product items =>
      match c.mode with
      | .nodes =>
        if n = 0 then pure absent
        else do
          let children ← sequence trail.afresh items (n - 1)
          pure (node children)
      | .leaves =>
        match trail.enter rule.key with
        | none => throw (.inconsistent (.cycle rule.key n))
        | some trail' => do
          let children ← sequence trail' items n
          pure (node children)
    | .union items =>
      match trail.enter rule.key with
      | none => throw (.inconsistent (.cycle rule.key n))
      | some trail' => member trail' items

/-- That a trail was entered is kept for the recursion to end; what is done there is the same. -/
theorem match_entered {α : Type} (entered : Option Trail) (again : α) (go : Trail → α) :
    (match _ : entered with
      | none => again
      | some trail' => go trail') =
    match entered with
      | none => again
      | some trail' => go trail' := by
  cases entered with
  | none => rfl
  | some trail' => rfl

/-- Equation lemma: whatever is no name is bound nowhere. -/
theorem growRef_nameless {trail : Trail} {r : Ref} {n : Nat} (nameless : ∀ s, r ≠ .name s) :
    c.growRef trail r n = throw (.undefinedName r.canonical none) := by
  rcases r with s | t | b
  · exact absurd rfl (nameless s)
  · rw [growRef, Ref.canonical]
  · rw [growRef, Ref.canonical]

/-- Equation lemma: a tag is its leaf, at size one only. -/
theorem growRef_tag {trail : Trail} {s : String} {n : Nat} (tag : isTag s = true) :
    c.growRef trail (.name s) n = pure (if n = 1 then .leaf s else .absent) := by
  rw [growRef, if_pos tag]

/-- Equation lemma: a name without a rule fails. -/
theorem growRef_unbound {trail : Trail} {s : String} {n : Nat} (tag : ¬isTag s = true)
    (found : c.rules.lookup s = none) :
    c.growRef trail (.name s) n = throw (.undefinedName s none) := by
  rw [growRef, if_neg tag]
  split
  · rfl
  · next found' => rw [found] at found'; cases found'

/-- Equation lemma: for a name with a rule its type decides, and a member of a union is drawn by its
weight. -/
theorem growRef_bound {trail : Trail} {s : String} {n : Nat} {rule : Rule} (tag : ¬isTag s = true)
    (found : c.rules.lookup s = some rule) :
    c.growRef trail (.name s) n =
      c.growBound .absent .leaf (.node s) c.growSequence
        (fun trail' items => do
          let weights ← Grow.ofCount (c.memberWeights n items)
          match ← Grow.ofDraw (Choice.draw weights) with
          | some item => c.growRef trail' item n
          | none => throw (.undefinedName "None" none)) trail rule n := by
  rw [growRef, if_neg tag]
  split
  · next found' => rw [found] at found'; cases found'
  · next rule' found' =>
    obtain rfl := Option.some.inj (found.symm.trans found')
    rw [growBound]
    congr 1
    funext count
    by_cases zero : count = 0
    · rw [if_pos zero, if_pos zero]
    · rw [if_neg zero, if_neg zero]
      rcases rule.type with t | items | items
      · rfl
      · rcases items with _ | ⟨first, rest⟩
        · rfl
        · rcases c.mode with _ | _
          · rfl
          · exact match_entered _ _ _
      · exact match_entered _ _ _

/-- Equation lemma: whatever is no name is bound nowhere. -/
theorem traceRef_nameless {trail : Trail} {r : Ref} {n : Nat} (nameless : ∀ s, r ≠ .name s) :
    c.traceRef trail r n = throw (.undefinedName r.canonical none) := by
  rcases r with s | t | b
  · exact absurd rfl (nameless s)
  · rw [traceRef, Ref.canonical]
  · rw [traceRef, Ref.canonical]

/-- Equation lemma: a tag is its leaf, at size one only, and nothing is recorded. -/
theorem traceRef_tag {trail : Trail} {s : String} {n : Nat} (tag : isTag s = true) :
    c.traceRef trail (.name s) n = pure (if n = 1 then .leaf s else .absent) := by
  rw [traceRef, if_pos tag]

/-- Equation lemma: a name without a rule fails. -/
theorem traceRef_unbound {trail : Trail} {s : String} {n : Nat} (tag : ¬isTag s = true)
    (found : c.rules.lookup s = none) :
    c.traceRef trail (.name s) n = throw (.undefinedName s none) := by
  rw [traceRef, if_neg tag]
  split
  · rfl
  · next found' => rw [found] at found'; cases found'

/-- Equation lemma: for a name with a rule its type decides, and the place of the member that is
drawn is recorded. -/
theorem traceRef_bound {trail : Trail} {s : String} {n : Nat} {rule : Rule} (tag : ¬isTag s = true)
    (found : c.rules.lookup s = some rule) :
    c.traceRef trail (.name s) n =
      c.growBound .absent .leaf (.node s) c.traceSequence
        (fun trail' items => do
          let weights ← Grow.ofCount (c.memberWeights n items)
          match ← Grow.ofDraw (Choice.draw (placed weights)) with
          | some member => do
            let t ← c.traceRef trail' member.2 n
            pure (.choice member.1 t)
          | none => throw (.undefinedName "None" none)) trail rule n := by
  rw [traceRef, if_neg tag]
  split
  · next found' => rw [found] at found'; cases found'
  · next rule' found' =>
    obtain rfl := Option.some.inj (found.symm.trans found')
    rw [growBound]
    congr 1
    funext count
    by_cases zero : count = 0
    · rw [if_pos zero, if_pos zero]
    · rw [if_neg zero, if_neg zero]
      rcases rule.type with t | items | items
      · rfl
      · rcases items with _ | ⟨first, rest⟩
        · rfl
        · rcases c.mode with _ | _
          · rfl
          · exact match_entered _ _ _
      · exact match_entered _ _ _

/-- What is made of a tree for a name is made of the trees of its items. -/
theorem map_growBound {α β : Type} (f : α → β) (fs : List α → List β) {absent : α}
    {leaf : String → α} {node : List α → α} {sequence : Trail → List Ref → Nat → Grow (List α)}
    {member : Trail → List Ref → Grow α} {node' : List β → β}
    {sequence' : Trail → List Ref → Nat → Grow (List β)} {member' : Trail → List Ref → Grow β}
    {trail : Trail} {rule : Rule} {n : Nat} (nil : fs [] = [])
    (nodes : ∀ children, f (node children) = node' (fs children))
    (smaller : ∀ items, n ≠ 0 →
      sequence' trail.afresh items (n - 1) = fs <$> sequence trail.afresh items (n - 1))
    (same : ∀ trail' items, trail.enter rule.key = some trail' →
      sequence' trail' items n = fs <$> sequence trail' items n)
    (members : ∀ trail' items, trail.enter rule.key = some trail' →
      member' trail' items = f <$> member trail' items) :
    f <$> c.growBound absent leaf node sequence member trail rule n =
      c.growBound (f absent) (fun tag => f (leaf tag)) node' sequence' member' trail rule n := by
  rw [growBound, growBound, map_bind]
  congr 1
  funext count
  by_cases zero : count = 0
  · rw [if_pos zero, if_pos zero, map_pure]
  · rw [if_neg zero, if_neg zero]
    have throws : ∀ e : Failure, f <$> (throw e : Grow α) = throw e := fun _ => rfl
    rcases rule.type with t | items | items
    · rfl
    · rcases items with _ | ⟨first, rest⟩
      · exact congrArg (pure (f := Grow)) ((nodes []).trans (congrArg node' nil))
      · rcases c.mode with _ | _
        · dsimp only
          by_cases hn : n = 0
          · rw [if_pos hn, if_pos hn, map_pure]
          · rw [if_neg hn, if_neg hn, smaller _ hn, bind_map_left, map_bind]
            simp only [map_pure, nodes]
        · dsimp only
          rcases entered : trail.enter rule.key with _ | trail'
          · exact throws _
          · simp only [same _ _ entered, bind_map_left, map_bind, map_pure, nodes]
    · dsimp only
      rcases entered : trail.enter rule.key with _ | trail'
      · exact throws _
      · exact (members trail' items entered).symm

/-! ### Forgetting the choices -/

/-- Without the places the members are what they were. -/
theorem map_placed (weights : List (Ref × Int)) :
    (placed weights).map (fun entry => (entry.1.2, entry.2)) = weights := by
  rw [placed, List.map_map]
  exact List.zipIdx_map_fst 0 weights

/-- A member is drawn alike with and without its place. -/
theorem draw_placed (weights : List (Ref × Int)) :
    Grow.ofDraw (Choice.draw weights) =
      Option.map Prod.snd <$> Grow.ofDraw (Choice.draw (placed weights)) := by
  have forget := Choice.draw_map (placed weights) Prod.snd
  rw [map_placed] at forget
  rw [forget, Grow.ofDraw_map]

/-- Forgetting the choices gives what is grown without recording any. -/
theorem growRef_eq_and_growSequence_eq :
    (∀ trail r n, c.growRef trail r n = Trace.sample <$> c.traceRef trail r n) ∧
    (∀ trail items n,
      c.growSequence trail items n = Trace.samples <$> c.traceSequence trail items n) := by
  apply growing_induction c
  case nameless =>
    intro trail r n nameless
    rw [growRef_nameless c nameless, traceRef_nameless c nameless]
    rfl
  case tag =>
    intro trail s n tag
    rw [growRef_tag c tag, traceRef_tag c tag, map_pure]
    by_cases one : n = 1
    · rw [if_pos one, if_pos one, Trace.sample]
    · rw [if_neg one, if_neg one, Trace.sample]
  case unbound =>
    intro trail s n tag found
    rw [growRef_unbound c tag found, traceRef_unbound c tag found]
    rfl
  case bound =>
    intro trail s n rule tag found smaller same members
    rw [growRef_bound c tag found, traceRef_bound c tag found]
    refine Eq.symm (map_growBound c Trace.sample Trace.samples ?_ ?_ smaller same
      fun trail' items entered => ?_)
    · rw [Trace.samples]
    · intro children
      rw [Trace.sample]
    rw [map_bind]
    congr 1
    funext weights
    rw [draw_placed, bind_map_left, map_bind]
    congr 1
    funext drawn
    rcases drawn with _ | member
    · rfl
    · simp only [Option.map_some, members trail' _ entered, map_bind, map_pure]
      rfl
  case empty =>
    intro trail n
    rw [growSequence, traceSequence]
    rfl
  case single =>
    intro trail r n ih
    rw [growSequence, traceSequence, ih, bind_map_left, map_bind]
    rfl
  case several =>
    intro trail head second rest n ih₁ ih₂
    rw [growSequence, traceSequence, map_bind]
    congr 1
    funext weights
    rw [map_bind]
    congr 1
    funext split
    rcases split with _ | split
    · rfl
    · simp only [ih₁ _ split.2, ih₂ _ split.2, bind_map_left, map_bind]
      rfl

end Recurrence

end TreeGrammar
