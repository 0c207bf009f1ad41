import TreeGrammar.Proofs.Reading.Faithful

/-!
# References to nothing

A text that is written as a reference is an item of the bindings once nested types have names. At
that point every item has to be bound, and the names that were handed out are bound by then. So a
reference to nothing is reported unless it happens to be written like one of those names.

* `Bindings.Refers.mentions`, `Bindings.Defines.mentions`: what is written in an expression occurs
  in the bindings.
* `dangling_handedOut`: which references to nothing are not reported.
* `captured`: definitions with a reference that the name of a nested type answers.
-/

namespace TreeGrammar

/-! ### What is written occurs in the bindings -/

namespace Bindings

/-- A text is an item of one of the bodies. -/
def Mentions (b : Bindings) (x : String) : Prop :=
  ∃ p ∈ b, x ∈ p.2.items

variable {b : Bindings} {given : List String} {known : String → Prop} {s : String}

/-- The items of a body that is found are mentioned. -/
theorem mentions_of_lookup {body : Body} (bound : b.lookup s = some body) {x : String}
    (item : x ∈ body.items) : b.Mentions x :=
  ⟨(s, body), mem_of_lookup bound, item⟩

/-- The element type of a list is an item of its cells. -/
theorem Defines.mentions_element {x : String} (h : b.Defines given known [s, x] Expr.cells s) :
    b.Mentions x := by
  cases h with
  | union bound refers there _ =>
    obtain ⟨y, _, related⟩ := there (.product [.var 1, .var 0]) (by simp)
    cases refers _ _ related with
    | new _ cell =>
      cases cell with
      | @product _ _ _ texts bound length refers =>
        obtain ⟨a, a', rfl⟩ := List.length_eq_two.1 length.symm
        cases refers (.var 1, a) (by simp) with
        | var first =>
          cases first
          exact mentions_of_lookup bound (by simp [Body.items])
        | new _ defines => cases defines

mutual

/-- Of the texts written in an expression all but the one that stands for it are items of the
bindings. -/
theorem Refers.mentions : (e : Expr) → ∀ {scope : List String} {s : String},
    b.Refers given known scope e s → ∀ x ∈ e.literals, x = s ∨ b.Mentions x
  | e, scope, s, h, x, hx => by
    cases h with
    | name => exact Or.inl (by simpa [Expr.literals] using hx)
    | raw => exact Or.inl (by simpa [Expr.literals] using hx)
    | value => exact absurd hx (by simp [Expr.literals])
    | var => exact absurd hx (by simp [Expr.literals])
    | @closed _ e _ inner => exact Refers.mentions e inner x (by simpa [Expr.literals] using hx)
    | new _ defines => exact Or.inr (Defines.mentions e defines x hx)
termination_by e => (sizeOf e, 1)

/-- The texts written in an expression that a name is bound to are items of the bindings. -/
theorem Defines.mentions : (e : Expr) → ∀ {scope : List String} {s : String},
    b.Defines given known scope e s → ∀ x ∈ e.literals, b.Mentions x
  | .product items, scope, s, @Defines.product _ _ _ _ _ _ texts bound length refers, x, hx => by
    rw [Expr.literals] at hx
    obtain ⟨e, he, written⟩ := Expr.mem_literalsAll.1 hx
    obtain ⟨i, hi, rfl⟩ := List.mem_iff_getElem.1 he
    have there : i < texts.length := length ▸ hi
    have paired : (items[i], texts[i]) ∈ items.zip texts :=
      List.mem_iff_getElem.2 ⟨i, by rw [List.length_zip]; omega, List.getElem_zip⟩
    rcases Refers.mentions items[i] (refers _ paired) x written with rfl | mentions
    · exact mentions_of_lookup bound (List.getElem_mem there)
    · exact mentions
  | .union items, scope, s, .union bound refers there _, x, hx => by
    rw [Expr.literals] at hx
    obtain ⟨e, he, written⟩ := Expr.mem_literalsAll.1 hx
    obtain ⟨y, hy, related⟩ := there e he
    rcases Refers.mentions e (refers e y related) x written with rfl | mentions
    · exact mentions_of_lookup bound hy
    · exact mentions
  | .list label elem, scope, s, .list refers inner, x, hx => by
    rw [Expr.literals] at hx
    rcases Refers.mentions elem refers x hx with rfl | mentions
    · exact inner.mentions_element
    · exact mentions
  | .mu label body, scope, s, .mu inner, x, hx => by
    rw [Expr.literals] at hx
    exact Defines.mentions body inner x hx
  | .closed e, scope, s, .closed inner, x, hx => by
    rw [Expr.literals] at hx
    exact Defines.mentions e inner x hx
  | .value tag, scope, s, _, x, hx => absurd hx (by simp [Expr.literals])
termination_by e => (sizeOf e, 0)

end

end Bindings

/-! ### What is not reported -/

/-- Definitions are made of expressions, in which no two binders share a label, and normalisation
returns a grammar for them. Then a text written as a reference, wherever it stands, is a tag, or the
name of a definition, or one of the numbered names that were handed out to nested types: a reference
to nothing is reported unless it is written like such a name. -/
theorem dangling_handedOut {defs : List (String × Expr)} {ds : List Definition}
    {events : List Event} {g : Grammar} (made : Definition.makeAll defs = .ok ds)
    (built : Grammar.ofDefinitions? ds = (events, .ok g))
    (apart : LabelsApart (Expr.bindersAll (defs.map (·.2)))) {s : String}
    (written : s ∈ Expr.literalsAll (defs.map (·.2))) (name : ¬isTag s = true)
    (dangling : s ∉ defs.map (·.1)) : s ∈ g.names ∧ ∃ k : Nat, s = "t_" ++ toString k := by
  obtain ⟨named, flat, stages, rfl⟩ := Grammar.exists_stages built
  obtain ⟨e, he, literal⟩ := Expr.mem_literalsAll.1 written
  obtain ⟨p, hp, rfl⟩ := List.mem_map.1 he
  have defines : named.Defines (defs.map (·.1)) (fun _ => True) [] p.2 p.1 :=
    stages.defines made apart (fun _ _ => trivial) (fun _ _ => trivial) p hp
  obtain ⟨q, hq, item⟩ := Bindings.Defines.mentions p.2 defines s literal
  obtain ⟨new, names, handedOut⟩ := stages.names
  have bound : s ∈ named.names :=
    (Bindings.accountedBy_of_unbound?_eq_none stages.closed q hq s item).resolve_left name
  have fresh : s ∈ new := by
    rw [names, names_of_makeAll made] at bound
    exact (List.mem_append.1 bound).resolve_left dangling
  refine ⟨?_, handedOut.numbered s fresh⟩
  rwa [Grammar.names_ofBindings, stages.flat_names]

/-- A pair of something that is not defined and the empty product, written in place. -/
def captured : List (String × Expr) :=
  [("A", .product [.name "t_0", .product []])]

/-- The definition, with the reference to nothing. -/
def capturedDefinitions : List Definition :=
  [⟨"A", .product [.name "t_0", .inline (.product [])], by decide⟩]

/-- The grammar, in which the reference has become one to the empty product. -/
def capturedGrammar : Grammar :=
  .ofBindings [("A", .product ["t_0", "t_0"]), ("t_0", .product [])]

/-- The expressions are read as the definition. -/
theorem captured_made : Definition.makeAll captured = .ok capturedDefinitions := by
  cbv

/-- The definition is accepted: the empty product gets the name that is referred to. -/
theorem captured_built :
    Grammar.ofDefinitions? capturedDefinitions =
      ([.extracted ⟨"t_0", .product [], "A"⟩, .converged 1, .built 2 1], .ok capturedGrammar) := by
  cbv

/-- What nothing defines is bound in the grammar all the same, and it is spelled like a name that is
handed out. -/
theorem dangling_handedOut_captured :
    "t_0" ∈ capturedGrammar.names ∧ ∃ k : Nat, "t_0" = "t_" ++ toString k :=
  dangling_handedOut captured_made captured_built
    (by simp [LabelsApart, captured, Expr.bindersAll, Expr.binders]) (by decide) (by decide)
    (by decide)

/-- The reference is to nothing, and yet the definitions are accepted. -/
theorem captured_dangling :
    ("t_0" ∈ Expr.literalsAll (captured.map (·.2)) ∧ ¬isTag "t_0" = true ∧
      "t_0" ∉ captured.map (·.1)) ∧
    Definition.makeAll captured = .ok capturedDefinitions ∧
      (Grammar.ofDefinitions? capturedDefinitions).2 = .ok capturedGrammar := by
  refine ⟨by decide, captured_made, ?_⟩
  rw [captured_built]

end TreeGrammar
