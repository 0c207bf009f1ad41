import Mathlib
import TreeGrammar.Proofs.Bindings.Outcome
import TreeGrammar.Proofs.Bindings.Renaming

/-!
# Naming in another spelling

Types that differ in the spelling of names only have as many types nested in them, and these are
named alike: whatever names are handed out, their bodies differ in the spelling of names only. Nor
does a builder fail in one spelling only, so naming ends with bindings in both or in none, in
whatever order the types are taken.

* `Pairing`, `Spelled`: names of one spelling and those of the other.
* `Laid.corresponds`: what is laid down in both spellings.
* `exists_perm_map`: names that correspond are other names of each other.
* `Supported`, `extract_supported`: naming ends with bindings if it did so in another spelling.
-/

namespace TreeGrammar

/-! ### Pairs of names -/

/-- Names of one spelling with those of another: no two names have one partner, and definitions may
have any of them. -/
structure Pairing (P : List (String × String)) : Prop where
  one : ∀ p ∈ P, ∀ q ∈ P, (p.1 = q.1 ↔ p.2 = q.2)
  definable : ∀ p ∈ P, IsDefinable p.1 ∧ IsDefinable p.2

/-- Two texts are one tag, or two names that are paired. -/
def Spelled (P : List (String × String)) (s s' : String) : Prop :=
  isTag s = true ∧ s' = s ∨ (s, s') ∈ P

/-- A name that a definition may have is no tag. -/
theorem IsDefinable.ne_tag {s t : String} (h : IsDefinable s) (tag : isTag t = true) : s ≠ t := by
  rintro rfl
  rw [h.2] at tag
  cases tag

variable {P : List (String × String)} {f : String → String} {s s' x x' : String}

/-- Texts that are paired stay so when another pair is added. -/
theorem Spelled.mono {q : String × String} (h : Spelled P s s') : Spelled (q :: P) s s' :=
  h.imp_right (List.mem_cons_of_mem _)

/-- Names that are paired, and tags, match one to one. -/
theorem Pairing.matching (h : Pairing P) : Matching (Spelled P) := by
  refine ⟨?_, fun tag => Or.inl ⟨tag, rfl⟩, ?_⟩
  · rintro s s' t t' (⟨tag, rfl⟩ | p) (⟨tag', rfl⟩ | q)
    · exact Iff.rfl
    · exact iff_of_false ((h.definable _ q).1.ne_tag tag).symm
        ((h.definable _ q).2.ne_tag tag).symm
    · exact iff_of_false ((h.definable _ p).1.ne_tag tag') ((h.definable _ p).2.ne_tag tag')
    · exact h.one _ p _ q
  · rintro s s' (⟨tag, rfl⟩ | p)
    · exact Iff.rfl
    · exact iff_of_false (h.definable _ p).1.1 (h.definable _ p).2.1

/-- Two names that are in no pair may be paired. -/
theorem Pairing.cons (h : Pairing P) (left : x ∉ P.map (·.1)) (right : x' ∉ P.map (·.2))
    (definable : IsDefinable x) (definable' : IsDefinable x') : Pairing ((x, x') :: P) := by
  have left' : ∀ p ∈ P, p.1 ≠ x := fun p hp same => left (List.mem_map.2 ⟨p, hp, same⟩)
  have right' : ∀ p ∈ P, p.2 ≠ x' := fun p hp same => right (List.mem_map.2 ⟨p, hp, same⟩)
  refine ⟨fun p hp q hq => ?_, List.forall_mem_cons.2 ⟨⟨definable, definable'⟩, h.definable⟩⟩
  rcases List.mem_cons.1 hp with rfl | hp
  · rcases List.mem_cons.1 hq with rfl | hq
    · exact iff_of_true rfl rfl
    · exact iff_of_false (left' q hq).symm (right' q hq).symm
  · rcases List.mem_cons.1 hq with rfl | hq
    · exact iff_of_false (left' p hp) (right' p hp)
    · exact h.one p hp q hq

/-- Names are new: each once, none of them given, and definitions may have them. -/
structure New (given names : List String) : Prop where
  distinct : names.Nodup
  apart : ∀ y ∈ names, y ∉ given
  definable : ∀ y ∈ names, IsDefinable y

section

variable {given inner others : List String}

/-- The first of some new names is not given, and a definition may have it. -/
theorem New.head (h : New given (x :: inner ++ others)) : x ∉ given ∧ IsDefinable x :=
  ⟨h.apart x List.mem_cons_self, h.definable x List.mem_cons_self⟩

/-- New names stay new when those before them are left out. -/
theorem New.right (h : New given (x :: inner ++ others)) : New given others :=
  ⟨(List.nodup_append.1 h.distinct).2.1, fun y hy => h.apart y (List.mem_append_right _ hy),
    fun y hy => h.definable y (List.mem_append_right _ hy)⟩

/-- What comes behind a name is new still when that name is given. -/
theorem New.left (h : New given (x :: inner ++ others)) : New (x :: given) inner := by
  have distinct := List.nodup_cons.1 (List.nodup_append.1 h.distinct).1
  have member : ∀ y ∈ inner, y ∈ x :: inner ++ others := fun y hy =>
    List.mem_append_left _ (List.mem_cons_of_mem _ hy)
  refine ⟨distinct.2, fun y hy again => ?_, fun y hy => h.definable y (member y hy)⟩
  rcases List.mem_cons.1 again with rfl | again
  · exact distinct.1 hy
  · exact h.apart y (member y hy) again

end

/-! ### What is laid down in both spellings -/

/-- An item stands for a single type under a name. -/
theorem Ref.TypedAs.unique {r : Ref} {t u : Ty} (first : r.TypedAs x t) (second : r.TypedAs x u) :
    t = u := by
  cases first with
  | inline =>
    cases second with
    | inline => rfl
  | deferred typed =>
    cases second with
    | deferred typed' =>
      rw [typed] at typed'
      exact Except.ok.inj typed'

/-- What an item stands for under a name, its counterpart stands for under the paired name. -/
theorem Ref.TypedAs.exists_alike (pairing : Pairing ((x, x') :: P)) {r r' : Ref} {t : Ty}
    (typed : r.TypedAs x t) (same : r.Alike (Spelled P) f r') :
    ∃ t', r'.TypedAs x' t' ∧ t.Alike (Spelled ((x, x') :: P)) f t' := by
  have wider : ∀ s s', Spelled P s s' → Spelled ((x, x') :: P) s s' := fun _ _ => Spelled.mono
  cases typed with
  | inline =>
    cases same with
    | inline same => exact ⟨_, .inline _, same.mono wider⟩
  | deferred typed =>
    cases same with
    | deferred same =>
      obtain ⟨t', typed', alike⟩ := (Builder.typeNamed_agree pairing.matching (same.mono wider)
        (Or.inr List.mem_cons_self)).exists_ok typed
      exact ⟨t', .deferred typed', alike⟩

/-- Other names keep tags, and lead from one partner to the other. -/
structure Extends (σ : Equiv.Perm String) (P : List (String × String)) : Prop where
  tags : ∀ s, isTag s = true → σ s = s
  pairs : ∀ p ∈ P, σ p.1 = p.2

/-- Other names lead from a text to the one it is spelled as. -/
theorem Extends.apply {σ : Equiv.Perm String} (h : Extends σ P) (same : Spelled P s s') :
    σ s = s' := by
  obtain ⟨tag, rfl⟩ | paired := same
  · exact h.tags _ tag
  · exact h.pairs _ paired

namespace Bindings

variable {b b' : Bindings}

/-- A name is bound, and its other name is bound to the same body under other names. -/
def FoundAs (b b' : Bindings) (σ : Equiv.Perm String) (s : String) : Prop :=
  ∃ body, b.lookup s = some body ∧ b'.lookup (σ s) = some (body.rename σ)

/-- There are as many names of nested types in both spellings, and other names that lead from each
to the one in its place are as `Q` says. -/
def Corresponds (P : List (String × String)) (nested nested' : List String)
    (Q : Equiv.Perm String → Prop) : Prop :=
  nested.length = nested'.length ∧ ∀ σ, Extends σ P → nested.map σ = nested' → Q σ

-- The names met on the way are paired one by one: what is nested in a type is read for its name, so
-- it differs in spelling only once that name has its partner.

mutual

/-- Types that differ in spelling only are laid down alike. -/
theorem Laid.corresponds {P : List (String × String)} {s s' : String} {t t' : Ty}
    {nested nested' : List String} : b.Laid s t nested → b'.Laid s' t' nested' →
    t.Alike (Spelled P) f t' → Pairing P → (s, s') ∈ P → New (P.map (·.1)) nested →
    New (P.map (·.2)) nested' →
    Corresponds P nested nested' fun σ => ∀ y ∈ s :: nested, b.FoundAs b' σ y
  | .value bound, laid', same, _, own, _, _ => by
    cases same with
    | value =>
      cases laid' with
      | value bound' =>
        refine ⟨rfl, fun σ h _ => List.forall_mem_singleton.2 ⟨_, bound, ?_⟩⟩
        rw [h.pairs _ own, bound']
        rfl
  | .product bound laid, laid', same, pairing, own, new, new' => by
    cases same with
    | product same =>
      cases laid' with
      | product bound' laid' =>
        obtain ⟨length, found⟩ := laid.corresponds laid' same pairing new new'
        refine ⟨length, fun σ h names => ?_⟩
        obtain ⟨texts, inner⟩ := found σ h names
        refine List.forall_mem_cons.2 ⟨⟨_, bound, ?_⟩, inner⟩
        rw [h.pairs _ own, bound', ← texts]
        rfl
  | .union _ bound laid, laid', same, pairing, own, new, new' => by
    cases same with
    | union _ same =>
      cases laid' with
      | union _ bound' laid' =>
        obtain ⟨length, found⟩ := laid.corresponds laid' same pairing new new'
        refine ⟨length, fun σ h names => ?_⟩
        obtain ⟨texts, inner⟩ := found σ h names
        refine List.forall_mem_cons.2 ⟨⟨_, bound, ?_⟩, inner⟩
        rw [h.pairs _ own, bound', ← texts, eraseDups_map σ.injective]
        rfl

/-- Items that differ in spelling only are laid down alike. -/
theorem LaidAll.corresponds {P : List (String × String)} {items items' : List Ref}
    {texts texts' nested nested' : List String} : b.LaidAll items texts nested →
    b'.LaidAll items' texts' nested' → Ref.AllAlike (Spelled P) f items items' → Pairing P →
    New (P.map (·.1)) nested → New (P.map (·.2)) nested' →
    Corresponds P nested nested' fun σ => texts.map σ = texts' ∧ ∀ y ∈ nested, b.FoundAs b' σ y
  | .nil, laid', same, _, _, _ => by
    cases same
    cases laid'
    exact ⟨rfl, fun _ _ _ => ⟨rfl, fun y hy => absurd hy List.not_mem_nil⟩⟩
  | .name others, laid', same, pairing, new, new' => by
    cases same with
    | cons first rest =>
      cases first with
      | name same =>
        cases laid' with
        | name others' =>
          obtain ⟨length, found⟩ := others.corresponds others' rest pairing new new'
          refine ⟨length, fun σ h names => ?_⟩
          obtain ⟨texts, inner⟩ := found σ h names
          exact ⟨by rw [List.map_cons, h.apply same, texts], inner⟩
        | type typed => cases typed
  | .type (s := x) typed laid others, laid', same, pairing, new, new' => by
    cases same with
    | cons first rest =>
      cases laid' with
      | name =>
        cases first
        cases typed
      | @type x' _ _ _ _ _ _ typed' laid' others' =>
        have pairing' := pairing.cons new.head.1 new'.head.1 new.head.2 new'.head.2
        obtain ⟨t', typed'', alike⟩ := typed.exists_alike pairing' first
        obtain rfl := typed'.unique typed''
        obtain ⟨length, found⟩ :=
          laid.corresponds laid' alike pairing' List.mem_cons_self new.left new'.left
        obtain ⟨length', found'⟩ := others.corresponds others' rest pairing new.right new'.right
        refine ⟨by simp only [List.length_append, List.length_cons, length, length'],
          fun σ h names => ?_⟩
        rw [List.map_append, List.map_cons] at names
        -- as many names stand before those of the other items in both spellings
        obtain ⟨first, others⟩ := List.append_inj names (by simp [length])
        obtain ⟨own, inner⟩ := List.cons.inj first
        have h' : Extends σ ((x, x') :: P) := ⟨h.tags, List.forall_mem_cons.2 ⟨own, h.pairs⟩⟩
        obtain ⟨texts, later⟩ := found' σ h others
        refine ⟨by rw [List.map_cons, own, texts], fun y hy => ?_⟩
        exact (List.mem_append.1 hy).elim (found σ h' inner y) (later y)

end

end Bindings

/-! ### Names that correspond -/

/-- Names that are as many as others, each once and none of them a tag, have these for their other
names. -/
theorem exists_perm_map {l l' : List String} (length : l.length = l'.length) (distinct : l.Nodup)
    (distinct' : l'.Nodup) (names : ∀ x ∈ l, ¬isTag x = true)
    (names' : ∀ x ∈ l', ¬isTag x = true) :
    ∃ σ : Equiv.Perm String, (∀ s, isTag s = true → σ s = s) ∧ l.map σ = l' := by
  induction l generalizing l' with
  | nil => exact ⟨1, fun _ _ => rfl, (List.length_eq_zero_iff.1 length.symm).symm⟩
  | cons a l ih =>
    obtain ⟨a', l', rfl⟩ := List.exists_cons_of_length_eq_add_one length.symm
    rw [List.nodup_cons] at distinct distinct'
    rw [List.forall_mem_cons] at names names'
    obtain ⟨σ, tags, rfl⟩ :=
      ih (Nat.succ.inj length) distinct.2 distinct'.2 names.2 names'.2
    -- behind the other names of the rest, what `a` became and `a'` change places
    have swapped : ∀ x, x ≠ a → σ x ≠ a' → Equiv.swap (σ a) a' (σ x) = σ x := fun x first last =>
      Equiv.swap_apply_of_ne_of_ne (fun same => first (σ.injective same)) last
    refine ⟨Equiv.swap (σ a) a' * σ, fun s tag => ?_, ?_⟩
    · rw [Equiv.Perm.mul_apply, swapped s, tags s tag]
      · rintro rfl
        exact names.1 tag
      · rw [tags s tag]
        rintro rfl
        exact names'.1 tag
    · rw [List.map_cons, Equiv.Perm.mul_apply, Equiv.swap_apply_left]
      refine congrArg (a' :: ·) (List.map_congr_left fun x hx => ?_)
      rw [Equiv.Perm.mul_apply]
      refine swapped x ?_ ?_
      · rintro rfl
        exact distinct.1 hx
      · rintro rfl
        exact distinct'.1 (List.mem_map_of_mem hx)

/-- If lists that are joined correspond, and those joined are as long, each corresponds to the one
in its place. -/
theorem map_of_flatMap {α β γ : Type} {F : α → List β} {G : α → List γ} {h : β → γ} {l : List α}
    (length : ∀ a ∈ l, (F a).length = (G a).length) (joined : (l.flatMap F).map h = l.flatMap G) :
    ∀ a ∈ l, (F a).map h = G a := by
  induction l with
  | nil => exact fun a ha => absurd ha List.not_mem_nil
  | cons a l ih =>
    rw [List.forall_mem_cons] at length ⊢
    rw [List.flatMap_cons, List.flatMap_cons, List.map_append] at joined
    obtain ⟨first, others⟩ := List.append_inj joined (by rw [List.length_map, length.1])
    exact ⟨first, ih length.2 others⟩

/-- Names with their other spellings. -/
def spellings (f : String → String) (names : List String) : List (String × String) :=
  names.map fun s => (s, f s)

/-- The first of the pairs are the names. -/
theorem spellings_left (f : String → String) (names : List String) :
    (spellings f names).map (·.1) = names := by
  rw [spellings, List.map_map]
  exact List.map_id names

/-- The second of the pairs are the other spellings. -/
theorem spellings_right (f : String → String) (names : List String) :
    (spellings f names).map (·.2) = names.map f := by
  rw [spellings, List.map_map]
  rfl

section

variable {b b' : Bindings} {names : List String} {inner inner' : String → List String}

/-- Bindings are found in others under other names if, name by name, what is laid down in them
corresponds to what is laid down in the others. -/
theorem Bindings.exists_embeds (all : b.names.Perm (names.flatMap fun s => s :: inner s))
    (part : (names.flatMap fun s => f s :: inner' s).Subperm b'.names)
    (distinct : b.names.Nodup) (distinct' : b'.names.Nodup) (untagged : Untagged b)
    (untagged' : Untagged b')
    (corresponds : ∀ s ∈ names, Corresponds (spellings f names) (inner s) (inner' s)
      fun σ => ∀ y ∈ s :: inner s, b.FoundAs b' σ y) :
    ∃ σ : Equiv.Perm String, b.Embeds σ b' ∧
      ∀ s ∈ names, σ s = f s ∧ (inner s).map σ = inner' s := by
  have length : ∀ s ∈ names, (s :: inner s).length = (f s :: inner' s).length := fun s hs => by
    rw [List.length_cons, List.length_cons, (corresponds s hs).1]
  obtain ⟨image, same, sub⟩ := part
  have subset : ∀ x ∈ names.flatMap fun s => f s :: inner' s, x ∈ b'.names := fun x hx =>
    sub.subset (same.mem_iff.2 hx)
  obtain ⟨σ, tags, lead⟩ := exists_perm_map
    (by rw [List.length_flatMap, List.length_flatMap, List.map_congr_left length])
    (all.nodup_iff.1 distinct) (same.nodup_iff.1 (distinct'.sublist sub))
    (fun x hx => untagged_iff.1 untagged x (all.mem_iff.2 hx))
    fun x hx => untagged_iff.1 untagged' x (subset x hx)
  have each : ∀ s ∈ names, σ s = f s ∧ (inner s).map σ = inner' s := fun s hs =>
    List.cons.inj (map_of_flatMap length lead s hs)
  have keeps : Extends σ (spellings f names) :=
    ⟨tags, List.forall_mem_map.2 fun s hs => (each s hs).1⟩
  refine ⟨σ, ⟨tags, fun s body found => ?_⟩, each⟩
  obtain ⟨n, hn, hs⟩ := List.mem_flatMap.1 (all.mem_iff.1 (mem_names_of_lookup found))
  obtain ⟨body', found', led⟩ := (corresponds n hn).2 σ keeps (each n hn).2 s hs
  rw [found] at found'
  cases found'
  exact led

/-- Where what corresponds is all that the others bind, they bind no other name. -/
theorem Bindings.mem_names_of_map {σ : Equiv.Perm String}
    (all : b.names.Perm (names.flatMap fun s => s :: inner s))
    (all' : b'.names.Perm (names.flatMap fun s => f s :: inner' s))
    (each : ∀ s ∈ names, σ s = f s ∧ (inner s).map σ = inner' s) {s : String}
    (bound : σ s ∈ b'.names) : s ∈ b.names := by
  obtain ⟨n, hn, hs⟩ := List.mem_flatMap.1 (all'.mem_iff.1 bound)
  rw [← (each n hn).1, ← (each n hn).2, ← List.map_cons, List.mem_map_of_injective σ.injective]
    at hs
  exact all.mem_iff.2 (List.mem_flatMap.2 ⟨n, hn, hs⟩)

end

/-! ### Naming ends in both spellings -/

/-- The counterpart of a type in another spelling is laid down there. The names around it have
partners that are in use. -/
inductive Supported (b : Bindings) (f : String → String) (used : List String) (t' : Ty) : Prop
  | intro {P : List (String × String)} {s : String} {t : Ty} {nested : List String}
      (pairing : Pairing P) (partners : ∀ p ∈ P, p.2 ∈ used) (new : New (P.map (·.1)) nested)
      (laid : b.Laid s t nested) (same : t.Alike (Spelled P) f t') : Supported b f used t'

/-- What is supported stays so when more names are in use. -/
theorem Supported.mono {b : Bindings} {used used' : List String} {t' : Ty}
    (more : used ⊆ used') : Supported b f used t' → Supported b f used' t'
  | intro pairing partners new laid same =>
    intro pairing (fun p hp => more (partners p hp)) new laid same

/-- A type that is laid down has its items laid down. -/
theorem Bindings.Laid.items {b : Bindings} {s : String} {t : Ty} {nested : List String}
    (h : b.Laid s t nested) : ∃ texts, b.LaidAll t.items texts nested := by
  cases h with
  | value => exact ⟨[], .nil⟩
  | product _ laid => exact ⟨_, laid⟩
  | union _ _ laid => exact ⟨_, laid⟩

/-- An item that stands for a type under a fresh name is moved out. -/
theorem extractItems_typed {supply : FreshNames} {r : Ref} {rest : List Ref} {t : Ty}
    {h : Extracted} (typed : r.TypedAs supply.fresh.1 t)
    (later : extractItems supply.fresh.2 rest = .ok h) : extractItems supply (r :: rest) =
      .ok ⟨supply.fresh.1 :: h.texts, (supply.fresh.1, t) :: h.moved, h.supply⟩ := by
  cases typed with
  | inline => simp only [extractItems, later]
  | deferred typed => simp only [extractItems, typed, later]

/-- A fresh name may be a definition's. -/
theorem isDefinable_fresh {supply : FreshNames} (stem : supply.stem = "t_") :
    IsDefinable supply.fresh.1 := by
  obtain ⟨k, e⟩ := supply.exists_numbered_fresh
  rw [e, stem]
  exact isDefinable_numbered k

/-- If items are laid down in another spelling, no builder among them fails, and neither does any in
the types moved out. -/
theorem extractItems_supported {b : Bindings} {P : List (String × String)}
    {items items' : List Ref} {texts nested : List String} {supply : FreshNames}
    (pairing : Pairing P) (laid : b.LaidAll items texts nested)
    (same : Ref.AllAlike (Spelled P) f items items') (new : New (P.map (·.1)) nested)
    (stem : supply.stem = "t_") (partners : ∀ p ∈ P, p.2 ∈ supply.used) :
    ∃ h, extractItems supply items' = .ok h ∧ ∀ p ∈ h.moved, Supported b f h.supply.used p.2 := by
  induction items generalizing items' texts nested supply with
  | nil =>
    cases same
    exact ⟨_, rfl, fun p hp => absurd hp List.not_mem_nil⟩
  | cons r rest ih =>
    cases same with
    | cons first others =>
      cases laid with
      | name laid =>
        cases first with
        | @name _ s' =>
          obtain ⟨h, e, supported⟩ := ih laid others new stem partners
          exact ⟨{ h with texts := s' :: h.texts }, by simp only [extractItems, e], supported⟩
      | @type x _ t _ _ inner _ typed laid laid' =>
        have pairing' : Pairing ((x, supply.fresh.1) :: P) := by
          refine pairing.cons new.head.1 (fun again => ?_) new.head.2 (isDefinable_fresh stem)
          obtain ⟨p, hp, same⟩ := List.mem_map.1 again
          exact supply.fresh_notMem (same ▸ partners p hp)
        obtain ⟨t', typed', alike⟩ := typed.exists_alike pairing' first
        have later : ∀ p ∈ P, p.2 ∈ supply.fresh.2.used := fun p hp =>
          List.mem_cons_of_mem _ (partners p hp)
        have partners' : ∀ p ∈ (x, supply.fresh.1) :: P, p.2 ∈ supply.fresh.2.used :=
          List.forall_mem_cons.2 ⟨List.mem_cons_self, later⟩
        obtain ⟨h, e, supported⟩ := @ih _ _ _ supply.fresh.2 laid' others new.right stem later
        refine ⟨_, extractItems_typed typed' e, List.forall_mem_cons.2 ⟨?_, supported⟩⟩
        exact .intro pairing'
          (fun p hp => ((extractItems_faithful e).used p.2).2 (Or.inl (partners' p hp)))
          new.left laid alike

/-- The items of a type that is laid down in another spelling are named without a failure, and the
types moved out of it are laid down there as well. -/
theorem Supported.extractItems {b : Bindings} {supply : FreshNames} {t' : Ty}
    (h : Supported b f supply.used t') (stem : supply.stem = "t_") :
    ∃ h, extractItems supply t'.items = .ok h ∧ (∃ body, t'.withTexts h.texts = .ok body) ∧
      ∀ p ∈ h.moved, Supported b f h.supply.used p.2 := by
  obtain ⟨pairing, partners, new, laid, same⟩ := h
  obtain ⟨texts, laid⟩ := laid.items
  obtain ⟨h, e, supported⟩ := extractItems_supported pairing laid same.items new stem partners
  exact ⟨h, e, same.exists_withTexts (length_texts e), supported⟩

/-- If the types of a queue are laid down in another spelling, naming ends with bindings. -/
theorem extract_supported {b : Bindings} {supply : FreshNames} {queue : List Nested}
    (stem : supply.stem = "t_") (supported : ∀ p ∈ queue, Supported b f supply.used p.2) :
    ∃ log b', extract supply queue = .ok (log, b') := by
  fun_induction extract supply queue with
  | case1 => exact ⟨_, _, rfl⟩
  | case2 supply name t rest moved err e =>
    obtain ⟨h, e', -⟩ := (supported _ List.mem_cons_self).extractItems stem
    rw [e] at e'
    cases e'
  | case3 supply name t rest h e err refused =>
    obtain ⟨h', e', ⟨body, made⟩, -⟩ := (supported _ List.mem_cons_self).extractItems stem
    rw [e] at e'
    cases e'
    rw [refused] at made
    cases made
  | case4 supply name t rest h e body made log err e' ih =>
    obtain ⟨h', e'', -, moved⟩ := (supported _ List.mem_cons_self).extractItems stem
    rw [e] at e''
    cases e''
    have faithful := extractItems_faithful e
    have more : supply.used ⊆ h.supply.used := fun x hx => (faithful.used x).2 (Or.inl hx)
    obtain ⟨log, b', e''⟩ := ih (faithful.stem.trans stem) fun p hp =>
      (List.mem_append.1 hp).elim
        (fun hp => (supported p (List.mem_cons_of_mem _ hp)).mono more) (moved p)
    rw [e'] at e''
    cases e''
  | case5 supply name t rest h e body made log b' e' ih => exact ⟨_, _, rfl⟩

end TreeGrammar
