import Mathlib
import TreeGrammar.Proofs.Counting.Derivation
import TreeGrammar.Proofs.Reading.Realisation

/-!
# What expressions mean

The trees of an expression, read directly: a product written in place is a node without a name, a
union is a choice, and a binder stands for the least type that is equal to its body when its
variable stands for that type itself. A variable is looked up in an environment, which holds for
each binder what its name stands for.

* `Closure`: what a variable or a name stands for.
* `Reads`: the trees of an expression.
* `Tree.anonymise`: erases the names of nodes that are not given.
-/

namespace TreeGrammar

/-! ### Nodes without a name -/

namespace Tree

mutual

/-- Erases the names of all nodes that do not carry one of those given. -/
def anonymise (given : List String) : Tree → Tree
  | leaf tag => leaf tag
  | node name cs => node (if name ∈ given then name else "") (anonymiseAll given cs)

/-- Erases the names of nodes in several trees. -/
def anonymiseAll (given : List String) : List Tree → List Tree
  | [] => []
  | c :: cs => c.anonymise given :: anonymiseAll given cs

end

/-- Names are erased in several trees as in each. -/
theorem anonymiseAll_eq_map (given : List String) (cs : List Tree) :
    anonymiseAll given cs = cs.map (anonymise given) := by
  induction cs with
  | nil => rw [anonymiseAll, List.map_nil]
  | cons c cs ih => rw [anonymiseAll, ih, List.map_cons]

mutual

/-- The size does not depend on names. -/
theorem size_anonymise (given : List String) (mode : Accounting) :
    (t : Tree) → (t.anonymise given).size mode = t.size mode
  | leaf tag => by rw [anonymise]
  | node name [] => by rw [anonymise, anonymiseAll, size, size]
  | node name (c :: cs) => by
    rw [anonymise, anonymiseAll, size, size, size_anonymise given mode c,
      sizes_anonymiseAll given mode cs]

/-- Names do not count for the size of several trees. -/
theorem sizes_anonymiseAll (given : List String) (mode : Accounting) :
    (cs : List Tree) → sizes mode (anonymiseAll given cs) = sizes mode cs
  | [] => by rw [anonymiseAll]
  | c :: cs => by
    rw [anonymiseAll, sizes, sizes, size_anonymise given mode c, sizes_anonymiseAll given mode cs]

end

end Tree

/-! ### Direct reading -/

/-- What a name stands for: a definition, or an expression written in place, with what the names of
the binders around it stand for, innermost first. -/
inductive Closure where
  | defined (name : String)
  | inPlace (e : Expr) (env : List Closure)

namespace Closure

/-- The expression to be read. -/
def expr : Closure → Expr
  | defined name => .name name
  | inPlace e _ => e

/-- What its variables stand for. -/
def env : Closure → List Closure
  | defined _ => []
  | inPlace _ env => env

/-- The name of its nodes: that of the definition, and none for what is written in place. -/
def label : Closure → String
  | defined name => name
  | inPlace _ _ => ""

end Closure

/-- The trees of an expression under some definitions. The expression is what `self` is bound to,
and `env` holds what its variables stand for. -/
inductive Reads (defs : List (String × Expr)) : Closure → List Closure → Expr → Tree → Prop
  | tag {self : Closure} {env : List Closure} {s : String} (tag : isTag s = true) :
      Reads defs self env (.name s) (.leaf s)
  | name {self : Closure} {env : List Closure} {s : String} {e : Expr} {t : Tree}
      (name : ¬isTag s = true) (found : defs.lookup s = some e)
      (tree : Reads defs (.defined s) [] e t) : Reads defs self env (.name s) t
  | raw {self : Closure} {env : List Closure} {s : String} {t : Tree}
      (tree : Reads defs self env (.name s) t) : Reads defs self env (.raw (.text s)) t
  | value {self : Closure} {env : List Closure} {s : String} :
      Reads defs self env (.value (.text s)) (.leaf s)
  | product {self : Closure} {env : List Closure} {items : List Expr} {ts : List Tree}
      (length : items.length = ts.length)
      (children : ∀ p ∈ items.zip ts, Reads defs (.inPlace p.1 env) env p.1 p.2) :
      Reads defs self env (.product items) (.node self.label ts)
  | union {self : Closure} {env : List Closure} {items : List Expr} {e : Expr} {t : Tree}
      (member : e ∈ items) (tree : Reads defs (.inPlace e env) env e t) :
      Reads defs self env (.union items) t
  | list {self : Closure} {env : List Closure} {label : Nat} {elem : Expr} {t : Tree}
      (tree : Reads defs self [self, .inPlace elem env] Expr.cells t) :
      Reads defs self env (.list label elem) t
  | mu {self : Closure} {env : List Closure} {label : Nat} {body : Expr} {t : Tree}
      (tree : Reads defs self (self :: env) body t) : Reads defs self env (.mu label body) t
  | var {self c : Closure} {env : List Closure} {i : Nat} {t : Tree} (found : env[i]? = some c)
      (tree : Reads defs c c.env c.expr t) : Reads defs self env (.var i) t
  | closed {self : Closure} {env : List Closure} {e : Expr} {t : Tree}
      (tree : Reads defs self [] e t) : Reads defs self env (.closed e) t

/-- The trees of a name, read directly. -/
def Reads.trees (defs : List (String × Expr)) (name : String) : Set Tree :=
  {t | Reads defs (.defined name) [] (.name name) t}

/-! ### What bindings show of it -/

/-- The texts written as references in definitions are tags or the names of definitions. -/
def Known (defs : List (String × Expr)) (s : String) : Prop :=
  isTag s = true ∨ s ∈ defs.map (·.1)

/-- Bindings in which every definition is bound to its expression, and no tag is bound. -/
structure Realises (defs : List (String × Expr)) (b : Bindings) : Prop where
  defines : ∀ s ∈ defs.map (·.1), ∃ e, defs.lookup s = some e ∧
    b.Defines (defs.map (·.1)) (Known defs) [] e s
  untagged : ∀ s, isTag s = true → b.lookup s = none

section

variable (defs : List (String × Expr)) (b : Bindings)

/-- What a text shows of a closure: a definition shows by its name, and an expression written in
place by a text that stands for it. -/
inductive Shows : Closure → String → Prop
  | defined {s : String} (member : s ∈ defs.map (·.1)) : Shows (.defined s) s
  | inPlace {e : Expr} {env : List Closure} {scope : List String} {s : String}
      (env_shows : List.Forall₂ Shows env scope)
      (refers : b.Refers (defs.map (·.1)) (Known defs) scope e s) : Shows (.inPlace e env) s

/-- All closures that show as `s` have the tree `t`, with names erased. -/
def ReadAs (s : String) (t : Tree) : Prop :=
  ∀ c, Shows defs b c s → Reads defs c c.env c.expr (t.anonymise (defs.map (·.1)))

end

variable {defs : List (String × Expr)} {b : Bindings} {self : Closure} {s : String}

/-- What shows as a name that is not given has no name. -/
theorem Shows.label_eq (shows : Shows defs b self s) (named : s ∈ defs.map (·.1) → self.label = s) :
    self.label = if s ∈ defs.map (·.1) then s else "" := by
  by_cases given : s ∈ defs.map (·.1)
  · rw [if_pos given, named given]
  · rw [if_neg given]
    cases shows with
    | defined member => exact absurd member given
    | inPlace => rfl

/-! ### Trees of bindings are trees of expressions -/

/-- What is known of a tree of `s` by what `s` is bound to, when the trees of the items are known to
be trees of expressions. -/
def RevealsBody (defs : List (String × Expr)) (b : Bindings) (s : String) (t : Tree) :
    Body → Prop
  | .value tag => t = .leaf tag
  | .product texts => ∃ ts, t = .node s ts ∧ texts.length = ts.length ∧
      ∀ p ∈ texts.zip ts, ReadAs defs b p.1 p.2
  | .union texts => ∃ x ∈ texts, ReadAs defs b x t

/-- What is known of a tree of `s`, be it a tag or bound. -/
structure Reveals (defs : List (String × Expr)) (b : Bindings) (s : String) (t : Tree) : Prop where
  tag : isTag s = true → t = .leaf s
  body : ∀ body, b.lookup s = some body → RevealsBody defs b s t body

/-- Two sequences that are as long as a third one meet each other at each place of it. -/
theorem exists_mem_zip_zip {α β γ : Type} {l : List α} {m : List β} {n : List γ}
    (hm : l.length = m.length) {p : α × γ} (hp : p ∈ l.zip n) :
    ∃ y, (p.1, y) ∈ l.zip m ∧ (y, p.2) ∈ m.zip n := by
  obtain ⟨i, hi, rfl⟩ := List.mem_iff_getElem.1 hp
  rw [List.length_zip] at hi
  have bound : i < m.length := by omega
  refine ⟨m[i], List.mem_iff_getElem.2 ⟨i, ?_, ?_⟩, List.mem_iff_getElem.2 ⟨i, ?_, ?_⟩⟩
  · rw [List.length_zip]
    omega
  · rw [List.getElem_zip, List.getElem_zip]
  · rw [List.length_zip]
    omega
  · rw [List.getElem_zip, List.getElem_zip]

namespace Reveals

variable {t : Tree} (reveals : Reveals defs b s t)
include reveals

/-- A tree of a name that is bound to a union of expressions is read as one of them: the member that
it is a tree of stands for an expression. -/
theorem reads_union {env : List Closure} {scope : List String} {items : List Expr}
    (env_shows : List.Forall₂ (Shows defs b) env scope)
    (defines : b.Defines (defs.map (·.1)) (Known defs) scope (.union items) s) :
    Reads defs self env (.union items) (t.anonymise (defs.map (·.1))) := by
  cases defines with
  | union bound refers there back =>
    obtain ⟨x, hx, read⟩ : ∃ x ∈ _, ReadAs defs b x t := reveals.body _ bound
    obtain ⟨e, he, related⟩ := back x hx
    exact .union he (read _ (.inPlace env_shows (refers e x related)))

/-- A tree of a name that is bound to an expression is one of the expression. The induction is on
the expression, and the texts in it are known by what they show. -/
theorem reads_of_defines : (e : Expr) → ∀ {self : Closure} {env : List Closure}
    {scope : List String}, List.Forall₂ (Shows defs b) env scope → Shows defs b self s →
    (s ∈ defs.map (·.1) → self.label = s) →
    b.Defines (defs.map (·.1)) (Known defs) scope e s →
    Reads defs self env e (t.anonymise (defs.map (·.1)))
  | .name x, self, env, scope, _, _, _, defines => by cases defines
  | .raw d, self, env, scope, _, _, _, defines => by cases defines
  | .var i, self, env, scope, _, _, _, defines => by cases defines
  | .value tag, self, env, scope, _, _, _, defines => by
    cases defines with
    | value bound =>
      rw [show t = _ from reveals.body _ bound, Tree.anonymise]
      exact .value
  | .product items, self, env, scope, env_shows, shows, named, defines => by
    cases defines with
    | product bound length refers =>
      obtain ⟨ts, rfl, length', read⟩ := reveals.body _ bound
      rw [Tree.anonymise, Tree.anonymiseAll_eq_map, ← shows.label_eq named]
      refine .product (by rw [List.length_map, length, length']) fun p hp => ?_
      rw [List.zip_map_right] at hp
      obtain ⟨q, hq, rfl⟩ := List.mem_map.1 hp
      obtain ⟨x, first, second⟩ := exists_mem_zip_zip length hq
      exact read (x, q.2) second _ (.inPlace env_shows (refers (q.1, x) first))
  | .union items, self, env, scope, env_shows, _, _, defines =>
    reveals.reads_union env_shows defines
  | .mu label body, self, env, scope, env_shows, shows, named, defines => by
    cases defines with
    | mu inner =>
      exact .mu (reads_of_defines body (.cons shows env_shows) shows named inner)
  | .list label elem, self, env, scope, env_shows, shows, named, defines => by
    cases defines with
    | list refers inner =>
      exact .list (reveals.reads_union (.cons shows (.cons (.inPlace env_shows refers) .nil)) inner)
  | .closed e, self, env, scope, _, shows, named, defines => by
    cases defines with
    | closed inner => exact .closed (reads_of_defines e .nil shows named inner)

variable (realises : Realises defs b)
include realises

/-- A name reads as its definition, whatever stands around it. -/
theorem reads_name (known : Known defs s) (env : List Closure) :
    Reads defs self env (.name s) (t.anonymise (defs.map (·.1))) := by
  by_cases tag : isTag s = true
  · rw [reveals.tag tag, Tree.anonymise]
    exact .tag tag
  · rcases known with tag' | given
    · exact absurd tag' tag
    · obtain ⟨e, found, defines⟩ := realises.defines s given
      exact .name tag found
        (reveals.reads_of_defines e .nil (.defined given) (fun _ => rfl) defines)

/-- Whatever shows as `s` has the tree. What a variable stands for is smaller than its environment,
and the induction is on the size of both the expression and the environment. -/
theorem reads_of_refers {e : Expr} {env : List Closure} {scope : List String}
    (env_shows : List.Forall₂ (Shows defs b) env scope) (shows : Shows defs b self s)
    (refers : b.Refers (defs.map (·.1)) (Known defs) scope e s) :
    Reads defs self env e (t.anonymise (defs.map (·.1))) := by
  induction size : sizeOf e + sizeOf env using Nat.strong_induction_on
    generalizing e env self scope with
  | _ n ih =>
    cases refers with
    | name known => exact reveals.reads_name realises known env
    | raw known => exact .raw (reveals.reads_name realises known env)
    | value tag =>
      rw [reveals.tag tag, Tree.anonymise]
      exact .value
    | var bound =>
      obtain ⟨c, found, shows'⟩ := exists_getElem?_of_forall₂_right env_shows bound
      have smaller := List.sizeOf_lt_of_mem (List.mem_of_getElem? found)
      cases shows' with
      | defined given => exact .var found (reveals.reads_name realises (Or.inr given) [])
      | inPlace env_shows' refers' =>
        rw [Closure.inPlace.sizeOf_spec] at smaller
        refine .var found (ih _ ?_ env_shows' (.inPlace env_shows' refers') refers' rfl)
        rw [← size, Expr.var.sizeOf_spec, Closure.expr, Closure.env]
        omega
    | closed inner =>
      refine .closed (ih _ ?_ .nil shows inner rfl)
      rw [← size, Expr.closed.sizeOf_spec]
      cases env <;> simp only [List.nil.sizeOf_spec, List.cons.sizeOf_spec] <;> omega
    | new new defines =>
      exact reveals.reads_of_defines _ env_shows shows (fun given => absurd given new) defines

end Reveals

/-- The trees of a text in bindings are trees of all that it stands for. -/
theorem Realises.readAs (realises : Realises defs b) {t : Tree} (yields : b.Yields s t) :
    ReadAs defs b s t := by
  have all : ∀ {s : String} {t : Tree}, Reveals defs b s t → ReadAs defs b s t := by
    intro s t reveals c shows
    cases shows with
    | defined given => exact reveals.reads_name realises (Or.inr given) []
    | inPlace env_shows refers =>
      exact reveals.reads_of_refers realises env_shows (.inPlace env_shows refers) refers
  have bound : ∀ {s : String} {t : Tree} {body : Body}, ¬isTag s = true →
      b.lookup s = some body → RevealsBody defs b s t body → Reveals defs b s t := by
    intro s t body name found here
    refine ⟨fun tag => absurd tag name, fun body' found' => ?_⟩
    rw [found] at found'
    exact Option.some.inj found' ▸ here
  induction yields with
  | @tag s tag =>
    refine all ⟨fun _ => rfl, fun body found => ?_⟩
    rw [realises.untagged s tag] at found
    cases found
  | value name found => exact all (bound name found rfl)
  | product name found length _ ih => exact all (bound name found ⟨_, rfl, length, ih⟩)
  | union name found member _ ih => exact all (bound name found ⟨_, member, ih⟩)

/-! ### Trees of expressions are trees of bindings -/

/-- Whether an expression is read as a type written in place, or as a builder. -/
def Expr.IsCompound : Expr → Prop
  | product _ => True
  | union _ => True
  | list _ _ => True
  | mu _ _ => True
  | _ => False

/-- What is read as a type written in place, or as a builder, has a name of its own. -/
theorem Bindings.Refers.defines_of_compound {given : List String} {known : String → Prop}
    {scope : List String} {e : Expr} (h : b.Refers given known scope e s)
    (compound : e.IsCompound) : s ∉ given ∧ b.Defines given known scope e s := by
  cases h with
  | name => exact compound.elim
  | raw => exact compound.elim
  | value => exact compound.elim
  | var => exact compound.elim
  | closed => exact compound.elim
  | new new defines => exact ⟨new, defines⟩

/-- A text stands for an expression, or is bound to it and carries its name if it is given. -/
def Matches (defs : List (String × Expr)) (b : Bindings) (self : Closure) (scope : List String)
    (e : Expr) (s : String) : Prop :=
  b.Refers (defs.map (·.1)) (Known defs) scope e s ∨
    b.Defines (defs.map (·.1)) (Known defs) scope e s ∧ (s ∈ defs.map (·.1) → self.label = s)

/-- A name that stands for a type written in place is bound to it. -/
theorem Matches.defines {scope : List String} {e : Expr} (h : Matches defs b self scope e s)
    (compound : e.IsCompound) : b.Defines (defs.map (·.1)) (Known defs) scope e s ∧
      (s ∈ defs.map (·.1) → self.label = s) := by
  rcases h with refers | defines
  · obtain ⟨new, defines⟩ := refers.defines_of_compound compound
    exact ⟨defines, fun given => absurd given new⟩
  · exact defines

/-- Trees that come one by one from trees with names come from such trees in a row. -/
theorem exists_named {given : List String} {P : String → Tree → Prop} {texts : List String}
    {ts : List Tree} (length : texts.length = ts.length)
    (each : ∀ p ∈ texts.zip ts, ∃ t, P p.1 t ∧ t.anonymise given = p.2) :
    ∃ us, texts.length = us.length ∧ (∀ p ∈ texts.zip us, P p.1 p.2) ∧
      Tree.anonymiseAll given us = ts := by
  induction texts generalizing ts with
  | nil =>
    obtain rfl := List.length_eq_zero_iff.1 length.symm
    exact ⟨[], rfl, fun p hp => absurd hp List.not_mem_nil, by rw [Tree.anonymiseAll]⟩
  | cons x texts ih =>
    cases ts with
    | nil => cases length
    | cons t ts =>
      obtain ⟨u, hu, rfl⟩ := each (x, t) List.mem_cons_self
      obtain ⟨us, length', hus, rfl⟩ :=
        ih (Nat.succ.inj length) fun p hp => each p (List.mem_cons_of_mem _ hp)
      refine ⟨u :: us, congrArg (· + 1) length', ?_, by rw [Tree.anonymiseAll]⟩
      rw [List.zip_cons_cons]
      exact List.forall_mem_cons.2 ⟨hu, hus⟩

/-- A variable shows as the name that its binder was given. -/
theorem exists_shows_at {env : List Closure} {scope : List String}
    (env_shows : List.Forall₂ (Shows defs b) env scope) {i : Nat} {c : Closure}
    (found : env[i]? = some c) (bound : scope[i]? = some s) : Shows defs b c s := by
  obtain ⟨c', found', shows⟩ := exists_getElem?_of_forall₂_right env_shows bound
  rw [found] at found'
  cases found'
  exact shows

/-- A tree of an expression is a tree of whatever text stands for the expression, or is bound to it,
up to the names that are erased. -/
theorem Realises.exists_yields (realises : Realises defs b) {env : List Closure} {e : Expr}
    {t : Tree} (reads : Reads defs self env e t) :
    ∀ {scope : List String} {s : String}, List.Forall₂ (Shows defs b) env scope →
      Shows defs b self s → Matches defs b self scope e s →
      ∃ u, b.Yields s u ∧ u.anonymise (defs.map (·.1)) = t := by
  have untagged : ∀ {s body}, b.lookup s = some body → ¬isTag s = true := by
    intro s body bound tag
    rw [realises.untagged s tag] at bound
    cases bound
  induction reads with
  | @tag self env s' tag =>
    intro scope s _ _ found
    rcases found with refers | ⟨defines, -⟩
    · cases refers with
      | name => exact ⟨_, .tag tag, by rw [Tree.anonymise]⟩
      | new _ defines => cases defines
    · cases defines
  | @name self env s' e t name found _ ih =>
    intro scope s _ _ match'
    have given : s' ∈ defs.map (·.1) := List.mem_map.2 ⟨_, mem_of_lookup found, rfl⟩
    obtain ⟨e', found', defines'⟩ := realises.defines s' given
    rw [found] at found'
    cases found'
    rcases match' with refers | ⟨defines, -⟩
    · cases refers with
      | name => exact ih .nil (.defined given) (Or.inr ⟨defines', fun _ => rfl⟩)
      | new _ defines => cases defines
    · cases defines
  | raw _ ih =>
    intro scope s env_shows shows match'
    rcases match' with refers | ⟨defines, -⟩
    · cases refers with
      | raw known => exact ih env_shows shows (Or.inl (.name known))
      | new _ defines => cases defines
    · cases defines
  | @value self env s' =>
    intro scope s _ _ match'
    have of_defines : b.Defines (defs.map (·.1)) (Known defs) scope (.value (.text s')) s →
        ∃ u, b.Yields s u ∧ u.anonymise (defs.map (·.1)) = .leaf s' := by
      intro defines
      cases defines with
      | value bound => exact ⟨_, .value (untagged bound) bound, by rw [Tree.anonymise]⟩
    rcases match' with refers | ⟨defines, -⟩
    · cases refers with
      | value tag => exact ⟨_, .tag tag, by rw [Tree.anonymise]⟩
      | new _ defines => exact of_defines defines
    · exact of_defines defines
  | @product self env items ts length _ ih =>
    intro scope s env_shows shows match'
    obtain ⟨defines, named⟩ := match'.defines trivial
    cases defines with
    | @product _ _ _ texts bound length' refers =>
      -- the text in a child's place stands for the expression there
      have each : ∀ p ∈ texts.zip ts,
          ∃ u, b.Yields p.1 u ∧ u.anonymise (defs.map (·.1)) = p.2 := by
        intro p hp
        obtain ⟨e, first, second⟩ := exists_mem_zip_zip length'.symm hp
        have first' : (e, p.1) ∈ items.zip texts := by
          rw [← List.zip_swap]
          exact List.mem_map_of_mem (f := Prod.swap) first
        have refers' := refers _ first'
        exact ih (e, p.2) second env_shows (.inPlace env_shows refers') (Or.inl refers')
      obtain ⟨us, length'', yields, rfl⟩ := exists_named (length'.symm.trans length) each
      refine ⟨.node s us, .product (untagged bound) bound length'' yields, ?_⟩
      rw [Tree.anonymise, shows.label_eq named]
  | @union self env items e t member _ ih =>
    intro scope s env_shows shows match'
    obtain ⟨defines, -⟩ := match'.defines trivial
    cases defines with
    | union bound refers there back =>
      obtain ⟨x, hx, related⟩ := there e member
      have refers' := refers e x related
      obtain ⟨u, yields, same⟩ := ih env_shows (.inPlace env_shows refers') (Or.inl refers')
      exact ⟨u, .union (untagged bound) bound hx yields, same⟩
  | list _ ih =>
    intro scope s env_shows shows match'
    obtain ⟨defines, named⟩ := match'.defines trivial
    cases defines with
    | list refers inner =>
      -- in a cell number 0 is the name of the lists, and number 1 stands for the element type
      exact ih (.cons shows (.cons (.inPlace env_shows refers) .nil)) shows (Or.inr ⟨inner, named⟩)
  | mu _ ih =>
    intro scope s env_shows shows match'
    obtain ⟨defines, named⟩ := match'.defines trivial
    cases defines with
    | mu inner => exact ih (.cons shows env_shows) shows (Or.inr ⟨inner, named⟩)
  | var found _ ih =>
    intro scope s env_shows _ match'
    rcases match' with refers | ⟨defines, -⟩
    · cases refers with
      | var bound =>
        -- what the variable stands for shows by the name that its binder was given
        have shows := exists_shows_at env_shows found bound
        cases shows with
        | defined given => exact ih .nil (.defined given) (Or.inl (.name (Or.inr given)))
        | inPlace env_shows' refers' =>
          exact ih env_shows' (.inPlace env_shows' refers') (Or.inl refers')
      | new _ defines => cases defines
    · cases defines
  | closed _ ih =>
    intro scope s _ shows match'
    have of_defines : ∀ {e : Expr}, b.Defines (defs.map (·.1)) (Known defs) scope (.closed e) s →
        b.Defines (defs.map (·.1)) (Known defs) [] e s := by
      intro e defines
      cases defines with
      | closed inner => exact inner
    rcases match' with refers | ⟨defines, named⟩
    · cases refers with
      | closed inner => exact ih .nil shows (Or.inl inner)
      | new new defines =>
        exact ih .nil shows (Or.inr ⟨of_defines defines, fun given => absurd given new⟩)
    · exact ih .nil shows (Or.inr ⟨of_defines defines, named⟩)

end TreeGrammar
