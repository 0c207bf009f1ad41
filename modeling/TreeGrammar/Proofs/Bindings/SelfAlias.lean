import TreeGrammar.Bindings.SelfAlias
import TreeGrammar.Proofs.Counting.Aliases

/-!
# The search for a name that is an alias for itself

The search goes through names that it has not seen, and stops at its target. What it has gone
through when it ends without meeting the target is closed under aliases, so the target cannot be
reached from there at all.

* `Bindings.reaches_iff`: the search finds its target exactly if it can be reached.
* `Bindings.selfAlias?_eq_none_iff`: bindings pass the check exactly if their grammar has no cycle
  of aliases, where inner nodes do not count.
-/

namespace TreeGrammar

/-- A grammar of bindings binds their names. -/
theorem Grammar.names_ofBindings (b : Bindings) : (Grammar.ofBindings b).names = b.names := by
  rw [Grammar.names, Grammar.ofBindings, List.map_map]
  rfl

namespace Bindings

variable {b : Bindings} {target : String}

/-- What the search finds can be reached. -/
theorem reached_of_reaches {stack seen : List String} (h : b.reaches target stack seen = true) :
    ∃ x ∈ stack, Relation.ReflTransGen (fun s t => t ∈ b.next s) x target := by
  fun_induction b.reaches target stack seen with
  | case1 => cases h
  | case2 seen rest =>
    exact ⟨target, List.mem_cons_self, .refl⟩
  | case3 seen name rest _ _ ih =>
    obtain ⟨x, member, way⟩ := ih h
    exact ⟨x, List.mem_cons_of_mem _ member, way⟩
  | case4 seen name rest _ _ ih =>
    obtain ⟨x, member, way⟩ := ih h
    rcases List.mem_append.1 member with step | member
    · exact ⟨name, List.mem_cons_self, way.head step⟩
    · exact ⟨x, List.mem_cons_of_mem _ member, way⟩

/-- When the search ends without meeting its target, there is a set of names that is closed under
aliases, holds all it started from, and does not hold the target. Tags are put into the set because
the search passes over them: they are aliases for nothing. -/
theorem exists_closed_of_not_reaches (tags : ∀ s, isTag s = true → b.next s = [])
    (name : ¬isTag target = true) {stack seen : List String}
    (h : b.reaches target stack seen = false)
    (expanded : ∀ x ∈ seen, x ≠ target ∧ ∀ y ∈ b.next x, y ∈ seen ∨ y ∈ stack ∨ isTag y = true) :
    ∃ P : String → Prop, (∀ x, x ∈ seen ∨ x ∈ stack ∨ isTag x = true → P x) ∧ ¬P target ∧
      ∀ x, P x → ∀ y ∈ b.next x, P y := by
  fun_induction b.reaches target stack seen with
  | case1 seen =>
    -- the stack is empty: what was seen is closed, up to tags
    refine ⟨fun x => x ∈ seen ∨ isTag x = true, ?_, ?_, ?_⟩
    · rintro x (hx | hx | hx)
      · exact Or.inl hx
      · cases hx
      · exact Or.inr hx
    · rintro (hx | hx)
      · exact (expanded target hx).1 rfl
      · exact name hx
    · rintro x (hx | hx) y hy
      · rcases (expanded x hx).2 y hy with hy | hy | hy
        · exact Or.inl hy
        · cases hy
        · exact Or.inr hy
      · rw [tags x hx] at hy
        cases hy
  | case2 => cases h
  | case3 seen top rest _ passed ih =>
    -- the top is passed over, for it was seen or is a tag
    have settled : ∀ x, x ∈ seen ∨ x ∈ top :: rest ∨ isTag x = true →
        x ∈ seen ∨ x ∈ rest ∨ isTag x = true := by
      rintro x (hx | hx | hx)
      · exact Or.inl hx
      · rcases List.mem_cons.1 hx with rfl | hx
        · rcases passed with hx | hx
          · exact Or.inl hx
          · exact Or.inr (Or.inr hx)
        · exact Or.inr (Or.inl hx)
      · exact Or.inr (Or.inr hx)
    obtain ⟨P, holds, misses, closed⟩ :=
      ih h fun x hx => ⟨(expanded x hx).1, fun y hy => settled y ((expanded x hx).2 y hy)⟩
    exact ⟨P, fun x hx => holds x (settled x hx), misses, closed⟩
  | case4 seen top rest other _ ih =>
    -- the top is expanded: what it is an alias for is on the stack from now on
    have settled : ∀ x, x ∈ seen ∨ x ∈ top :: rest ∨ isTag x = true →
        x ∈ top :: seen ∨ x ∈ b.next top ++ rest ∨ isTag x = true := by
      rintro x (hx | hx | hx)
      · exact Or.inl (List.mem_cons_of_mem _ hx)
      · rcases List.mem_cons.1 hx with rfl | hx
        · exact Or.inl List.mem_cons_self
        · exact Or.inr (Or.inl (List.mem_append_right _ hx))
      · exact Or.inr (Or.inr hx)
    obtain ⟨P, holds, misses, closed⟩ := ih h fun x hx => by
      rcases List.mem_cons.1 hx with rfl | hx
      · exact ⟨other, fun y hy => Or.inr (Or.inl (List.mem_append_left _ hy))⟩
      · exact ⟨(expanded x hx).1, fun y hy => settled y ((expanded x hx).2 y hy)⟩
    exact ⟨P, fun x hx => holds x (settled x hx), misses, closed⟩

/-- The search finds its target exactly if it can be reached. -/
theorem reaches_iff (tags : ∀ s, isTag s = true → b.next s = []) (name : ¬isTag target = true)
    {stack : List String} :
    b.reaches target stack [] = true ↔
      ∃ x ∈ stack, Relation.ReflTransGen (fun s t => t ∈ b.next s) x target := by
  refine ⟨reached_of_reaches, fun ⟨x, member, way⟩ => ?_⟩
  by_contra missed
  obtain ⟨P, holds, misses, closed⟩ := exists_closed_of_not_reaches tags name
    (Bool.not_eq_true _ ▸ missed) fun x hx => absurd hx List.not_mem_nil
  have reached : ∀ y, Relation.ReflTransGen (fun s t => t ∈ b.next s) x y → P y := by
    intro y way
    induction way with
    | refl => exact holds x (Or.inr (Or.inl member))
    | tail _ step ih => exact closed _ ih _ step
  exact misses (reached target way)

/-! ### The grammar of bindings -/

/-- A name is bound in the grammar to the type of its body. -/
theorem get?_ofBindings (b : Bindings) (s : String) :
    (Grammar.ofBindings b).get? s = (b.lookup s).map Body.toTy := by
  induction b with
  | nil => rfl
  | cons p rest ih =>
    obtain ⟨name, body⟩ := p
    by_cases h : s = name
    · subst h
      simp [Grammar.ofBindings, Grammar.get?]
    · have hb : (s == name) = false := by simpa using h
      simpa [Grammar.ofBindings, Grammar.get?, List.lookup_cons, hb] using ih

/-- A body is an alias for the same names when it is taken as a type. -/
theorem name_mem_aliases_toTy {body : Body} {t : String} :
    .name t ∈ body.toTy.aliases .leaves ↔ t ∈ body.aliases := by
  rcases body with tag | items | items
  · simp [Body.toTy, Ty.aliases, Body.aliases]
  · rcases items with _ | ⟨x, _ | ⟨y, rest⟩⟩
    · simp [Body.toTy, Ty.aliases, Body.aliases]
    · simp [Body.toTy, Ty.aliases, Body.aliases]
    · simp [Body.toTy, Ty.aliases, Body.aliases]
  · simp [Body.toTy, Ty.aliases, Body.aliases]

/-- Where inner nodes do not count, the check follows the very aliases along which counts are asked
for again. -/
theorem alias_ofBindings (b : Bindings) :
    (Grammar.ofBindings b).Alias .leaves = fun s t => t ∈ b.next s := by
  funext s t
  rw [Grammar.Alias, get?_ofBindings, next]
  rcases b.lookup s with _ | body
  · simp
  · simp [name_mem_aliases_toTy]

/-- Where names are distinct each is found with the body it is bound to. -/
theorem lookup_eq_of_mem {name : String} {body : Body} (names : b.names.Nodup)
    (member : (name, body) ∈ b) : b.lookup name = some body := by
  induction b with
  | nil => cases member
  | cons p rest ih =>
    obtain ⟨name', body'⟩ := p
    obtain ⟨new, names'⟩ := List.nodup_cons.1 names
    rcases List.mem_cons.1 member with e | later
    · obtain ⟨rfl, rfl⟩ := Prod.mk.inj e
      exact List.lookup_cons_self
    · have other : (name == name') = false := by
        rw [beq_eq_false_iff_ne]
        rintro rfl
        exact new (List.mem_map.2 ⟨(name, body), later, rfl⟩)
      rw [List.lookup_cons, other]
      exact ih names' later

/-- What is found is bound. -/
theorem mem_names_of_lookup {s : String} {body : Body}
    (found : b.lookup s = some body) : s ∈ b.names :=
  List.mem_map.2 ⟨_, mem_of_lookup found, rfl⟩

/-- A body that is an alias for something may be an alias. -/
theorem isAlias_of_mem_aliases {body : Body} {t : String} (h : t ∈ body.aliases) :
    body.isAlias = true := by
  rcases body with tag | items | items
  · cases h
  · match items, h with
    | [_], _ => rfl
  · rfl

/-- What is found in a closed grammar is no tag. -/
theorem lookup_untagged (closed : (Grammar.ofBindings b).Closed) {s : String} {body : Body}
    (found : b.lookup s = some body) : ¬isTag s = true :=
  closed.names s body.toTy (by rw [get?_ofBindings, found]; rfl)

/-- A tag is an alias for nothing. -/
theorem next_tag (closed : (Grammar.ofBindings b).Closed) {s : String} (tag : isTag s = true) :
    b.next s = [] := by
  rcases found : b.lookup s with _ | body
  · rw [next, found]
  · exact absurd tag (lookup_untagged closed found)

/-- Where bindings pass the check no name is an alias for itself, whether or not inner nodes
count. -/
theorem not_cyclic_of_selfAlias?_eq_none (closed : (Grammar.ofBindings b).Closed)
    (none : b.selfAlias? = none) : ¬(Grammar.ofBindings b).Cyclic .leaves := by
  rw [selfAlias?, Option.map_eq_none_iff, List.find?_eq_none] at none
  rw [Grammar.Cyclic, alias_ofBindings]
  rintro ⟨s, cycle⟩
  obtain ⟨x, step, way⟩ := Relation.TransGen.head'_iff.1 cycle
  rcases found : b.lookup s with _ | body
  · rw [next, found] at step
    cases step
  · rw [next, found] at step
    refine none (s, body) (mem_of_lookup found) ?_
    rw [Bool.and_eq_true]
    exact ⟨isAlias_of_mem_aliases step,
      (reaches_iff (fun _ => next_tag closed) (lookup_untagged closed found)).2 ⟨x, step, way⟩⟩

/-- Bindings pass the check exactly if no name is an alias for itself, where inner nodes do not
count. -/
theorem selfAlias?_eq_none_iff (names : b.names.Nodup) (closed : (Grammar.ofBindings b).Closed) :
    b.selfAlias? = none ↔ ¬(Grammar.ofBindings b).Cyclic .leaves := by
  refine ⟨not_cyclic_of_selfAlias?_eq_none closed, fun acyclic => ?_⟩
  rw [selfAlias?, Option.map_eq_none_iff, List.find?_eq_none]
  rintro ⟨s, body⟩ member found
  rw [Bool.and_eq_true] at found
  have bound := lookup_eq_of_mem names member
  obtain ⟨x, step, way⟩ := reached_of_reaches found.2
  refine acyclic ⟨s, ?_⟩
  rw [alias_ofBindings]
  refine Relation.TransGen.head' ?_ way
  rw [next, bound]
  exact step

end Bindings

end TreeGrammar
