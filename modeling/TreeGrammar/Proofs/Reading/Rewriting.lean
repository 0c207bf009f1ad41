import Mathlib
import TreeGrammar.Proofs.Bindings.Spelling

/-!
# Definitions in another spelling

Definitions may be written in another order, and the names they give may be spelled otherwise. If
all that is written as a reference is a tag or a given name, they can be made in both spellings or
in none, and so can the bindings that naming nested types leaves. These are found in each other
under other names.

* `Expr.respell_respell`: spelling an expression back.
* `Respelling`: definitions in another order, with other spellings of the names given.
* `Respelling.symm`: the spellings may change places.
* `Respelling.exists_makeAll`, `Respelling.exists_naming`: what succeeds in one spelling succeeds in
  the other.
* `Respelling.exists_embeds`: the bindings are found in those of the other spelling.
* `Definition.alike_self`: definitions that refer to nothing else are their own other spelling.
-/

namespace TreeGrammar

variable {f g : String → String}

/-- A name that a definition may have is spelled as is said. -/
theorem respellText_of_isDefinable {s : String} (h : IsDefinable s) : respellText f s = f s := by
  rw [respellText, h.2, if_neg Bool.false_ne_true]

/-- A tag stays as it is. -/
theorem respellText_of_isTag {s : String} (h : isTag s = true) : respellText f s = s := by
  rw [respellText, if_pos h]

namespace Expr

mutual

/-- An expression is spelled back if all that is written in it as a reference is. -/
theorem respell_respell : (e : Expr) →
    (∀ s ∈ e.literals, respellText g (respellText f s) = s) → (e.respell f).respell g = e
  | name s, back => by rw [respell, respell, back s (by simp [literals])]
  | raw d, back => by
    cases d with
    | text s => rw [respell, respell, back s (by simp [literals])]
    | _ => rfl
  | value tag, _ => by rw [respell, respell]
  | product items, back => by
    rw [literals] at back
    rw [respell, respell, respellAll_respellAll items back]
  | union items, back => by
    rw [literals] at back
    rw [respell, respell, respellAll_respellAll items back]
  | list label elem, back => by
    rw [literals] at back
    rw [respell, respell, respell_respell elem back]
  | mu label body, back => by
    rw [literals] at back
    rw [respell, respell, respell_respell body back]
  | var index, _ => by rw [respell, respell]
  | closed e, back => by
    rw [literals] at back
    rw [respell, respell, respell_respell e back]

/-- Several expressions come back from another spelling if the texts in them do. -/
theorem respellAll_respellAll : (es : List Expr) →
    (∀ s ∈ literalsAll es, respellText g (respellText f s) = s) →
    respellAll g (respellAll f es) = es
  | [], _ => by rw [respellAll, respellAll]
  | e :: rest, back => by
    rw [literalsAll] at back
    rw [respellAll, respellAll, respell_respell e fun s hs => back s (List.mem_append_left _ hs),
      respellAll_respellAll rest fun s hs => back s (List.mem_append_right _ hs)]

end

mutual

/-- The texts in another spelling of an expression are its texts in the other spelling. -/
theorem literals_respell : (e : Expr) → (e.respell f).literals = e.literals.map (respellText f)
  | name s => by simp [respell, literals]
  | raw d => by cases d <;> simp [respell, literals]
  | value tag => by simp [respell, literals]
  | product items => by rw [respell, literals, literals, literalsAll_respellAll items]
  | union items => by rw [respell, literals, literals, literalsAll_respellAll items]
  | list label elem => by rw [respell, literals, literals, literals_respell elem]
  | mu label body => by rw [respell, literals, literals, literals_respell body]
  | var index => by simp [respell, literals]
  | closed e => by rw [respell, literals, literals, literals_respell e]

/-- The texts in other spellings of several expressions are their texts in the other spelling. -/
theorem literalsAll_respellAll : (es : List Expr) →
    literalsAll (respellAll f es) = (literalsAll es).map (respellText f)
  | [] => by simp [respellAll, literalsAll]
  | e :: rest => by
    rw [respellAll, literalsAll, literalsAll, literals_respell e, literalsAll_respellAll rest,
      List.map_append]

end

end Expr

/-! ### Definitions that are made -/

/-- Definitions that are made have names that definitions may have. -/
theorem definable_of_makeAll {defs : List (String × Expr)} {ds : List Definition}
    (made : Definition.makeAll defs = .ok ds) : ∀ s ∈ defs.map (·.1), IsDefinable s := by
  rw [← names_of_makeAll made]
  intro s hs
  obtain ⟨d, -, rfl⟩ := List.mem_map.1 hs
  exact d.definable

/-- Definitions are made if each name may be defined and each expression is read as a type. -/
theorem exists_makeAll {defs : List (String × Expr)}
    (read : ∀ p ∈ defs, IsDefinable p.1 ∧ ∃ t, p.2.bindTo p.1 [] = .ok (.ref (.inline t))) :
    ∃ ds, Definition.makeAll defs = .ok ds := by
  induction defs with
  | nil => exact ⟨[], rfl⟩
  | cons p rest ih =>
    obtain ⟨name, e⟩ := p
    obtain ⟨⟨definable, t, bound⟩, others⟩ := List.forall_mem_cons.1 read
    obtain ⟨ds, made⟩ := ih others
    rw [Expr.bindTo_eq] at bound
    rw [Definition.makeAll]
    rcases body : e.eval [] with err | o
    · rw [body] at bound
      cases bound
    · rw [body] at bound
      simp only [make_of_bindTo definable bound, made]
      exact ⟨_, rfl⟩

/-! ### Definitions whose nested types have names -/

/-- Naming lays down the type of every definition, with names that are new, and binds no others. -/
theorem Definition.exists_inner {ds : List Definition} {log : List Extraction} {b : Bindings}
    (distinct : (ds.map (·.name)).Nodup) (named : naming ds = .ok (log, b)) :
    ∃ inner : String → List String,
      (∀ d ∈ ds, b.Laid d.name d.type (inner d.name) ∧
        New (ds.map (·.name)) (inner d.name)) ∧
      b.names.Perm ((ds.map (·.name)).flatMap fun s => s :: inner s) := by
  obtain ⟨inner, laid, new⟩ :=
    extract_laid named (fun _ _ found => found) (Definition.queued distinct)
  obtain ⟨-, handed⟩ := extract_names named
  rw [List.flatMap_map] at new
  refine ⟨inner, fun d hd => ⟨laid _ (List.mem_map_of_mem hd), ?_, fun x hx given => ?_,
    fun x hx => ?_⟩, ?_⟩
  · exact (List.nodup_flatMap.1 (new.nodup_iff.2 handed.distinct)).1 d hd
  · exact notMem_of_logged named (new.subset (List.mem_flatMap.2 ⟨d, hd, hx⟩)) given
  · obtain ⟨k, rfl⟩ := handed.numbered x (new.subset (List.mem_flatMap.2 ⟨d, hd, hx⟩))
    exact isDefinable_numbered k
  · have all := Nested.allNames_perm inner (ds.map fun d => (d.name, d.type))
    rw [Nested.allNames, queue_names, List.flatMap_map, List.flatMap_map] at all
    rw [names_of_definitions named, List.flatMap_map]
    exact (all.trans (new.append_left _)).symm

/-! ### Definitions in two spellings -/

/-- Definitions `defs'` are the definitions `defs` in another order, in which the names given have
other spellings, no two of them the same and none a tag. All that is written as a reference is a tag
or a given name. -/
structure Respelling (f : String → String) (defs defs' : List (String × Expr)) : Prop where
  literals : ∀ s ∈ Expr.literalsAll (defs.map (·.2)), isTag s = true ∨ s ∈ defs.map (·.1)
  injective : Set.InjOn f {s | s ∈ defs.map (·.1)}
  definable : ∀ s ∈ defs.map (·.1), IsDefinable (f s)
  perm : defs'.Perm (defs.map fun p => (f p.1, p.2.respell f))

namespace Respelling

variable {defs defs' : List (String × Expr)} {ds ds' : List Definition}
  (h : Respelling f defs defs')
include h

/-- The names given in the other spelling are the names given, spelled so, in some order. -/
theorem names_perm : (defs'.map (·.1)).Perm ((defs.map (·.1)).map f) := by
  have names := h.perm.map (·.1)
  rw [List.map_map] at names ⊢
  exact names

/-- The other spelling of a name that is given is given. -/
theorem mem_names {s : String} (given : s ∈ defs.map (·.1)) : f s ∈ defs'.map (·.1) :=
  h.names_perm.mem_iff.2 (List.mem_map_of_mem given)

/-- Names given are distinct in both spellings or in neither. -/
theorem nodup_iff : (defs'.map (·.1)).Nodup ↔ (defs.map (·.1)).Nodup :=
  h.names_perm.nodup_iff.trans
    ⟨List.Nodup.of_map f, List.Nodup.map_on fun _ hs _ ht same => h.injective hs ht same⟩

end Respelling

namespace Respelling

variable {defs defs' : List (String × Expr)} {ds ds' : List Definition}
  (h : Respelling f defs defs') (made : Definition.makeAll defs = .ok ds)
include h made

/-- Names given are paired with their other spellings. -/
theorem pairing : Pairing (spellings f (defs.map (·.1))) := by
  refine ⟨fun p hp q hq => ?_, fun p hp => ?_⟩
  · obtain ⟨s, given, rfl⟩ := List.mem_map.1 hp
    obtain ⟨t, given', rfl⟩ := List.mem_map.1 hq
    exact (h.injective.eq_iff given given').symm
  · obtain ⟨s, given, rfl⟩ := List.mem_map.1 hp
    exact ⟨definable_of_makeAll made s given, h.definable s given⟩

/-- The spellings may change places. -/
theorem symm : ∃ g, Respelling g defs' defs := by
  have back : Set.LeftInvOn (Function.invFunOn f {s | s ∈ defs.map (·.1)}) f
      {s | s ∈ defs.map (·.1)} := h.injective.leftInvOn_invFunOn
  generalize Function.invFunOn f {s | s ∈ defs.map (·.1)} = g at back
  have given : ∀ s' ∈ defs'.map (·.1), ∃ s ∈ defs.map (·.1), f s = s' := fun s' hs' =>
    List.mem_map.1 (h.names_perm.mem_iff.1 hs')
  have text : ∀ s, isTag s = true ∨ s ∈ defs.map (·.1) →
      respellText g (respellText f s) = s := by
    rintro s (tag | hs)
    · rw [respellText_of_isTag tag, respellText_of_isTag tag]
    · rw [respellText_of_isDefinable (definable_of_makeAll made s hs),
        respellText_of_isDefinable (h.definable s hs), back hs]
  have same : ∀ p ∈ defs, (g (f p.1), (p.2.respell f).respell g) = p := by
    intro p hp
    refine Prod.ext (back (List.mem_map_of_mem hp)) (Expr.respell_respell p.2 fun s hs => ?_)
    exact text s (h.literals s (Expr.mem_literalsAll.2 ⟨p.2, List.mem_map_of_mem hp, hs⟩))
  have all : (defs.map fun p => (f p.1, p.2.respell f)).map (fun p => (g p.1, p.2.respell g)) =
      defs := by
    rw [List.map_map]
    exact (List.map_congr_left same).trans (List.map_id defs)
  refine ⟨g, fun s' hs' => ?_, fun s' hs' t' ht' same => ?_, fun s' hs' => ?_, ?_⟩
  · obtain ⟨e', he', hs'⟩ := Expr.mem_literalsAll.1 hs'
    obtain ⟨p', hp', rfl⟩ := List.mem_map.1 he'
    obtain ⟨p, hp, rfl⟩ := List.mem_map.1 (h.perm.mem_iff.1 hp')
    rw [Expr.literals_respell] at hs'
    obtain ⟨s, hs, rfl⟩ := List.mem_map.1 hs'
    rcases h.literals s (Expr.mem_literalsAll.2 ⟨p.2, List.mem_map_of_mem hp, hs⟩) with tag | hs
    · rw [respellText_of_isTag tag]
      exact Or.inl tag
    · rw [respellText_of_isDefinable (definable_of_makeAll made s hs)]
      exact Or.inr (h.mem_names hs)
  · obtain ⟨s, hs, rfl⟩ := given s' hs'
    obtain ⟨t, ht, rfl⟩ := given t' ht'
    rw [back hs, back ht] at same
    rw [same]
  · obtain ⟨s, hs, rfl⟩ := given s' hs'
    rw [back hs]
    exact definable_of_makeAll made s hs
  · have perm := (h.perm.map fun p => (g p.1, p.2.respell g)).symm
    rwa [all] at perm

/-- What is written as a reference has its other spelling. -/
theorem spelled {p : String × Expr} (hp : p ∈ defs) {s : String} (hs : s ∈ p.2.literals) :
    Spelled (spellings f (defs.map (·.1))) s (respellText f s) := by
  rcases h.literals s (Expr.mem_literalsAll.2 ⟨p.2, List.mem_map_of_mem hp, hs⟩) with tag | given
  · exact Or.inl ⟨tag, respellText_of_isTag tag⟩
  · rw [respellText_of_isDefinable (definable_of_makeAll made s given)]
    exact Or.inr (List.mem_map_of_mem given)

/-- An expression that is read as a type is read in the other spelling as the type that corresponds
to it. -/
theorem exists_alike {p : String × Expr} (hp : p ∈ defs) {t : Ty}
    (read : p.2.bindTo p.1 [] = .ok (.ref (.inline t))) :
    ∃ t', (p.2.respell f).bindTo (f p.1) [] = .ok (.ref (.inline t')) ∧
      t.Alike (Spelled (spellings f (defs.map (·.1)))) f t' := by
  have names : Spelled (spellings f (defs.map (·.1))) p.1 (f p.1) :=
    Or.inr (List.mem_map_of_mem (List.mem_map_of_mem hp))
  obtain ⟨o, read', same⟩ := (Expr.bindTo_agree (h.pairing made).matching names p.2 .nil
    fun s hs => h.spelled made hp hs).exists_ok read
  cases same with
  | ref same =>
    cases same with
    | inline same => exact ⟨_, read', same⟩

/-- Definitions that are made in one spelling are made in the other. -/
theorem exists_makeAll : ∃ ds', Definition.makeAll defs' = .ok ds' := by
  refine TreeGrammar.exists_makeAll fun p' hp' => ?_
  obtain ⟨p, hp, rfl⟩ := List.mem_map.1 (h.perm.mem_iff.1 hp')
  obtain ⟨d, -, -, read⟩ := exists_of_forall₂_left (makeAll_cases made) p hp
  obtain ⟨t', read', -⟩ := h.exists_alike made hp read
  exact ⟨h.definable p.1 (List.mem_map_of_mem hp), t', read'⟩

variable (made' : Definition.makeAll defs' = .ok ds')
include made'

/-- Every definition has one in the other spelling, and is one of the other spelling. -/
theorem exists_counterpart :
    (∀ d ∈ ds, ∃ d' ∈ ds', d'.name = f d.name ∧
      d.type.Alike (Spelled (spellings f (ds.map (·.name)))) f d'.type) ∧
    ∀ d' ∈ ds', ∃ d ∈ ds, d'.name = f d.name ∧
      d.type.Alike (Spelled (spellings f (ds.map (·.name)))) f d'.type := by
  rw [names_of_makeAll made]
  constructor
  · intro d hd
    obtain ⟨p, hp, name, read⟩ := exists_of_forall₂_right (makeAll_cases made) d hd
    obtain ⟨t', read', same⟩ := h.exists_alike made hp read
    obtain ⟨d', hd', name', read''⟩ := exists_of_forall₂_left (makeAll_cases made')
      (f p.1, p.2.respell f) (h.perm.mem_iff.2 (List.mem_map_of_mem hp))
    rw [read'] at read''
    cases read''
    exact ⟨d', hd', by rw [name', name], same⟩
  · intro d' hd'
    obtain ⟨p', hp', name', read''⟩ := exists_of_forall₂_right (makeAll_cases made') d' hd'
    obtain ⟨p, hp, rfl⟩ := List.mem_map.1 (h.perm.mem_iff.1 hp')
    obtain ⟨d, hd, name, read⟩ := exists_of_forall₂_left (makeAll_cases made) p hp
    obtain ⟨t', read', same⟩ := h.exists_alike made hp read
    rw [read'] at read''
    cases read''
    exact ⟨d, hd, by rw [name', name], same⟩

/-- Where naming ends with bindings in one spelling it does so in the other. -/
theorem exists_naming (distinct : (defs.map (·.1)).Nodup) {log : List Extraction} {b : Bindings}
    (named : Definition.naming ds = .ok (log, b)) :
    ∃ log' b', Definition.naming ds' = .ok (log', b') := by
  rw [← names_of_makeAll made] at distinct
  obtain ⟨inner, laid, -⟩ := Definition.exists_inner distinct named
  refine extract_supported (b := b) (f := f) rfl fun p' hp' => ?_
  obtain ⟨d', hd', rfl⟩ := List.mem_map.1 hp'
  obtain ⟨d, hd, -, same⟩ := (h.exists_counterpart made made').2 d' hd'
  obtain ⟨laid, new⟩ := laid d hd
  refine .intro ?_ (fun p hp => ?_) ?_ laid same
  · rw [names_of_makeAll made]
    exact h.pairing made
  · obtain ⟨s, given, rfl⟩ := List.mem_map.1 hp
    rw [names_of_makeAll made] at given
    refine List.mem_eraseDups.2 ?_
    rw [names_of_makeAll made']
    exact h.mem_names given
  · rwa [spellings_left]

/-- The bindings are found in those of the other spelling, in which nothing else is bound, and the
names given have their other spellings there. -/
theorem exists_embeds (distinct : (defs.map (·.1)).Nodup) {log log' : List Extraction}
    {b b' : Bindings} (named : Definition.naming ds = .ok (log, b))
    (named' : Definition.naming ds' = .ok (log', b')) :
    ∃ σ : Equiv.Perm String, b.Embeds σ b' ∧ (∀ s, σ s ∈ b'.names → s ∈ b.names) ∧
      ∀ s ∈ defs.map (·.1), σ s = f s := by
  have distinct' := h.nodup_iff.2 distinct
  have pairing := h.pairing made
  have names := h.names_perm
  have counterpart := (h.exists_counterpart made made').1
  rw [← names_of_makeAll made] at distinct pairing names ⊢
  rw [← names_of_makeAll made'] at distinct' names
  obtain ⟨inner, laid, all⟩ := Definition.exists_inner distinct named
  obtain ⟨inner', laid', all'⟩ := Definition.exists_inner distinct' named'
  have corresponds : ∀ s ∈ ds.map (·.name), Bindings.Corresponds (spellings f (ds.map (·.name)))
      (inner s) (inner' (f s)) fun σ => ∀ y ∈ s :: inner s, b.FoundAs b' σ y := by
    intro s given
    obtain ⟨d, hd, rfl⟩ := List.mem_map.1 given
    obtain ⟨d', hd', name, same⟩ := counterpart d hd
    obtain ⟨laid, new⟩ := laid d hd
    obtain ⟨laid', new'⟩ := laid' d' hd'
    rw [name] at laid' new'
    refine laid.corresponds laid' same pairing (List.mem_map_of_mem given) ?_ ?_
    · rwa [spellings_left]
    · rw [spellings_right]
      exact ⟨new'.distinct, fun y hy given => new'.apart y hy (names.mem_iff.2 given),
        new'.definable⟩
  have partners : b'.names.Perm ((ds.map (·.name)).flatMap fun s => f s :: inner' (f s)) := by
    have partners := all'.trans (names.flatMap_right _)
    rwa [List.flatMap_map] at partners
  obtain ⟨σ, embeds, each⟩ := Bindings.exists_embeds all partners.symm.subperm
    (nodup_of_definitions named distinct) (nodup_of_definitions named' distinct')
    (untagged_of_definitions named) (untagged_of_definitions named') corresponds
  exact ⟨σ, embeds, fun s bound => Bindings.mem_names_of_map all partners each bound,
    fun s given => (each s given).1⟩

end Respelling

/-! ### Definitions that refer to nothing else -/

section

variable {defs : List (String × Expr)} {ds : List Definition}
  (literals : ∀ s ∈ Expr.literalsAll (defs.map (·.2)), isTag s = true ∨ s ∈ defs.map (·.1))
  (made : Definition.makeAll defs = .ok ds)
include literals made

/-- Definitions that refer to nothing else are their own other spelling. -/
theorem Respelling.refl : Respelling id defs defs := by
  refine ⟨literals, Set.injOn_id _, definable_of_makeAll made, ?_⟩
  simp only [id, Expr.respell_id]
  rw [List.map_id']

/-- The type of a definition is alike to itself when names given are paired with themselves. -/
theorem Definition.alike_self {d : Definition} (hd : d ∈ ds) :
    d.type.Alike (Spelled (spellings id (ds.map (·.name)))) id d.type := by
  obtain ⟨p, hp, name, read⟩ := exists_of_forall₂_right (makeAll_cases made) d hd
  obtain ⟨t, again, same⟩ := (Respelling.refl literals made).exists_alike made hp read
  rw [Expr.respell_id, id, read] at again
  cases again
  rwa [names_of_makeAll made]

end

end TreeGrammar
