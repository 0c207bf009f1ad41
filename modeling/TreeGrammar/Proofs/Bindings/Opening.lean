import Mathlib
import TreeGrammar.Proofs.Bindings.Normal
import TreeGrammar.Proofs.Bindings.Yields

/-!
# What opening unions does

A pass opens one union after the other. To open a union is to replace the unions among its members
by theirs. The name yields the same trees before and after. A pass makes chains of unions in unions
shorter, and a cycle of such unions never goes away. So where flattening ends with a grammar in
which no name is an alias for itself there was no such cycle to begin with, the passes were enough,
and no member of a union is a union.

* `Bindings.Opens`: one union is opened.
* `Bindings.pass_rule`: the rule for what opening preserves.
* `Bindings.flatten_yields_iff`: flattening keeps the trees of every name.
* `Bindings.Flat`, `Bindings.flatten_flat`: no member of a union is a union, and none is repeated.
-/

namespace TreeGrammar

namespace Bindings

variable {b b' : Bindings} {name s t : String} {items : List String}

/-! ### Opening one union -/

/-- Members are found exactly under a name that is bound to a union of them. -/
theorem members?_eq_some_iff : b.members? s = some items ↔ b.lookup s = some (.union items) := by
  unfold members?
  split
  · next items' bound => simp [bound]
  · next other =>
    constructor
    · intro h
      cases h
    · intro bound
      exact absurd bound (other items)

/-- Where no name bound is a tag, a tag is not found. -/
theorem lookup_tag_of_untagged (untagged : Untagged b) (tag : isTag s = true) :
    b.lookup s = none := by
  refine lookup_eq_none_of_notMem fun bound => ?_
  obtain ⟨p, hp, rfl⟩ := List.mem_map.1 bound
  exact untagged p hp tag

/-- What opening a union puts in the place of its members. -/
theorem mem_expand {x : String} :
    x ∈ b.expand items ↔ (x ∈ items ∧ b.members? x = none) ∨
      ∃ y ∈ items, ∃ sub, b.members? y = some sub ∧ x ∈ sub := by
  rw [expand, List.mem_eraseDups, List.mem_flatMap]
  constructor
  · rintro ⟨y, hy, hx⟩
    rcases found : b.members? y with _ | sub
    · rw [found] at hx
      obtain rfl := List.mem_singleton.1 hx
      exact Or.inl ⟨hy, found⟩
    · rw [found] at hx
      exact Or.inr ⟨y, hy, sub, found, hx⟩
  · rintro (⟨hx, found⟩ | ⟨y, hy, sub, found, hx⟩)
    · refine ⟨x, hx, ?_⟩
      rw [found]
      exact List.mem_singleton_self x
    · refine ⟨y, hy, ?_⟩
      rw [found]
      exact hx

/-- One union, which is no member of itself, is opened; nothing else changes. -/
structure Opens (b : Bindings) (name : String) (items : List String) (b' : Bindings) : Prop where
  bound : b.members? name = some items
  apart : name ∉ items
  opened : b'.members? name = some (b.expand items)
  names : b'.names = b.names
  others : ∀ s, s ≠ name → b'.lookup s = b.lookup s

namespace Opens

variable (h : b.Opens name items b')
include h

/-- Other names keep their members. -/
theorem members?_of_ne (ne : s ≠ name) : b'.members? s = b.members? s := by
  rw [members?, members?, h.others s ne]

/-- Unions stay unions, and nothing else becomes one. -/
theorem members?_eq_none_iff : b'.members? s = none ↔ b.members? s = none := by
  by_cases e : s = name
  · subst e
    rw [h.opened, h.bound]
    simp
  · rw [h.members?_of_ne e]

end Opens

/-- A pass opens a union in its place. -/
theorem opens_in_place {done rest : Bindings}
    (distinct : (done ++ (name, .union items) :: rest).names.Nodup) (apart : name ∉ items) :
    (done ++ (name, .union items) :: rest).Opens name items
      (done ++ (name, .union ((done ++ (name, .union items) :: rest).expand items)) :: rest) := by
  have before : name ∉ done.names := by
    rw [names, List.map_append, List.map_cons] at distinct
    exact fun again => (List.nodup_append.1 distinct).2.2 name again name List.mem_cons_self rfl
  have here : ∀ body, (done ++ (name, body) :: rest).lookup name = some body := by
    intro body
    rw [List.lookup_append, lookup_eq_none_of_notMem before, List.lookup_cons_self]
    rfl
  refine ⟨members?_eq_some_iff.2 (here _), apart, members?_eq_some_iff.2 (here _), ?_,
    fun s ne => ?_⟩
  · simp [Bindings.names]
  have other : (s == name) = false := beq_eq_false_iff_ne.2 ne
  rw [List.lookup_append, List.lookup_append, List.lookup_cons, List.lookup_cons, other]

/-! ### The rule for a pass -/

/-- What a pass that succeeds does with the first binding left: a union that is no member of itself
is opened, and whatever is no union stays. -/
theorem pass_cons_cases {done rest : Bindings} {body : Body} {opened : Bool}
    (h : pass done ((name, body) :: rest) = .ok (b', opened)) :
    ((∀ items, body ≠ .union items) ∧ pass (done ++ [(name, body)]) rest = .ok (b', opened)) ∨
    ∃ items later, body = .union items ∧ name ∉ items ∧
      pass (done ++ [(name, .union ((done ++ (name, .union items) :: rest).expand items))]) rest =
        .ok (b', later) ∧
      opened = (later || items.any fun x =>
        ((done ++ (name, .union items) :: rest).members? x).isSome) := by
  rcases body with tag | texts | items
  · rw [pass.eq_3 _ _ _ _ fun _ e => by cases e] at h
    exact Or.inl ⟨fun _ e => (by cases e), h⟩
  · rw [pass.eq_3 _ _ _ _ fun _ e => by cases e] at h
    exact Or.inl ⟨fun _ e => (by cases e), h⟩
  · rw [pass] at h
    split at h
    · cases h
    · next apart =>
      simp only at h
      split at h
      · cases h
      · split at h
        · cases h
        · next b'' later h' =>
          cases h
          exact Or.inr ⟨items, later, rfl, apart, h', rfl⟩

/-- What holds of the bindings before a pass, when no name is dealt with, holds of the bindings
after it, when all are, if it stays true when a name that is bound to no union is passed over, and
when a union is opened. A pass that reports nothing opened has seen no union among the members of
one. -/
theorem pass_rule {I : List String → Bindings → Prop} {opened : Bool} {done todo : Bindings}
    (h : pass done todo = .ok (b', opened)) (distinct : (done ++ todo).names.Nodup)
    (skip : ∀ dealt c s, c.members? s = none → I dealt c → I (dealt ++ [s]) c)
    (opens : ∀ dealt c s members c', c.Opens s members c' →
      (opened = false → ∀ x ∈ members, c.members? x = none) → I dealt c → I (dealt ++ [s]) c')
    (start : I done.names (done ++ todo)) : I b'.names b' := by
  induction todo generalizing done opened with
  | nil =>
    rw [pass] at h
    cases h
    rwa [List.append_nil] at start
  | cons p rest ih =>
    obtain ⟨name, body⟩ := p
    have names : ∀ body', (done ++ [(name, body')] ++ rest).names =
        (done ++ (name, body) :: rest).names := by
      intro body'
      simp [Bindings.names]
    have grown : ∀ body', Bindings.names (done ++ [(name, body')]) = done.names ++ [name] := by
      intro body'
      simp [Bindings.names]
    rcases pass_cons_cases h with ⟨other, h'⟩ | ⟨items, later, rfl, apart, h', report⟩
    · refine ih h' (by rw [names]; exact distinct) opens ?_
      rw [grown, List.append_assoc]
      refine skip _ _ _ ?_ start
      rcases found : (done ++ (name, body) :: rest).members? name with _ | items
      · exact found
      · have bound := lookup_eq_of_mem distinct
          (List.mem_append_right done (List.mem_cons_self (a := (name, body)) (l := rest)))
        rw [members?_eq_some_iff, bound] at found
        exact absurd (Option.some.inj found) (other items)
    · refine ih h' (by rw [names]; exact distinct) (fun dealt c s members c' hc seen =>
        opens dealt c s members c' hc fun none => seen ?_) ?_
      · rw [none, eq_comm, Bool.or_eq_false_iff] at report
        exact report.1
      · rw [grown, List.append_assoc]
        refine opens _ _ _ _ _ (opens_in_place distinct apart) (fun none x hx => ?_) start
        rw [none, eq_comm, Bool.or_eq_false_iff, List.any_eq_false] at report
        simpa using report.2 x hx

/-! ### The trees stay -/

namespace Opens

variable (h : b.Opens name items b') (tags : ∀ s, isTag s = true → b.lookup s = none)
include h tags

/-- A tag is not found after a union is opened if it was not before. -/
theorem untagged : ∀ s, isTag s = true → b'.lookup s = none := by
  intro s tag
  have ne : s ≠ name := by
    rintro rfl
    have bound := members?_eq_some_iff.1 h.bound
    rw [tags s tag] at bound
    cases bound
  rw [h.others s ne]
  exact tags s tag

/-- A tree of a member that is itself a union is one of the member's members, and these have taken
its place. -/
theorem yields_after {t : Tree} (yields : b.Yields s t) : b'.Yields s t := by
  have bound := members?_eq_some_iff.1 h.bound
  have untagged : ∀ {x body}, b.lookup x = some body → ¬isTag x = true := by
    intro x body found tag
    rw [tags x tag] at found
    cases found
  induction yields with
  | tag tag => exact .tag tag
  | @value s tag name' found =>
    refine .value name' ((h.others s ?_).trans found)
    rintro rfl
    rw [bound] at found
    cases found
  | @product s items' ts name' found length _ ih =>
    refine .product name' ((h.others s ?_).trans found) length ih
    rintro rfl
    rw [bound] at found
    cases found
  | @union s x items' t name' found member _ ih =>
    by_cases e : s = name
    · subst e
      rw [bound] at found
      cases found
      have opened := members?_eq_some_iff.1 h.opened
      rcases sub : b.members? x with _ | sub'
      · exact .union name' opened (mem_expand.2 (Or.inl ⟨member, sub⟩)) ih
      · have ne : x ≠ s := fun e => h.apart (e ▸ member)
        have sub'' := members?_eq_some_iff.1 sub
        obtain ⟨y, hy, tree⟩ :=
          (yields_union (untagged sub'') ((h.others x ne).trans sub'')).1 ih
        exact .union name' opened (mem_expand.2 (Or.inr ⟨x, member, sub', sub, hy⟩)) tree
    · exact .union name' ((h.others s e).trans found) member ih

/-- A tree of a union that is opened was one of it before: a new member is a member of a member. -/
theorem yields_before {t : Tree} (yields : b'.Yields s t) : b.Yields s t := by
  have opened := members?_eq_some_iff.1 h.opened
  have bound := members?_eq_some_iff.1 h.bound
  induction yields with
  | tag tag => exact .tag tag
  | @value s tag name' found =>
    by_cases e : s = name
    · subst e
      rw [opened] at found
      cases found
    · exact .value name' ((h.others s e).symm.trans found)
  | @product s items' ts name' found length _ ih =>
    by_cases e : s = name
    · subst e
      rw [opened] at found
      cases found
    · exact .product name' ((h.others s e).symm.trans found) length ih
  | @union s x items' t name' found member _ ih =>
    by_cases e : s = name
    · subst e
      rw [opened] at found
      cases found
      rcases mem_expand.1 member with ⟨hx, -⟩ | ⟨y, hy, sub, found, hx⟩
      · exact .union name' bound hx ih
      · have found' := members?_eq_some_iff.1 found
        have name'' : ¬isTag y = true := by
          intro tag
          rw [tags y tag] at found'
          cases found'
        exact .union name' bound hy (.union name'' found' hx ih)
    · exact .union name' ((h.others s e).symm.trans found) member ih

end Opens

end Bindings

/-! ### Chains that come back to their beginning -/

section

variable {E : String → String → Prop}

/-- Names, at least one, from each of which a step leads to one of them. -/
structure Trap (E : String → String → Prop) (C : String → Prop) : Prop where
  inhabited : ∃ s, C s
  closed : ∀ s, C s → ∃ t, C t ∧ E s t

/-- The names on a cycle are a trap. -/
theorem trap_of_cycle {s : String} (cycle : Relation.TransGen E s s) :
    Trap E fun x => Relation.TransGen E s x ∧ Relation.TransGen E x s := by
  refine ⟨⟨s, cycle, cycle⟩, fun x ⟨there, back⟩ => ?_⟩
  obtain ⟨y, step, way⟩ := Relation.TransGen.head'_iff.1 back
  exact ⟨y, ⟨there.tail step, Relation.TransGen.trans_right way cycle⟩, step⟩

/-- Numbers that become smaller with every step leave no room for a trap. -/
theorem not_trap_of_rank {r : String → Nat} (less : ∀ s t, E s t → r t < r s)
    (C : String → Prop) : ¬Trap E C := by
  rintro ⟨⟨s, hs⟩, closed⟩
  induction bound : r s using Nat.strong_induction_on generalizing s with
  | _ n ih =>
    obtain ⟨t, ht, step⟩ := closed s hs
    exact ih (r t) (bound ▸ less s t step) t ht rfl

/-- Where steps begin at finitely many names and no chain of them comes back to its beginning, names
can be given numbers that become smaller with every step: how many beginnings of steps such chains
pass through. -/
theorem exists_rank {l : List String} (sources : ∀ s t, E s t → s ∈ l)
    (acyclic : ∀ s, ¬Relation.TransGen E s s) :
    ∃ r : String → Nat, (∀ s, r s ≤ l.length) ∧ ∀ s t, E s t → r t < r s := by
  classical
  let onward : String → Finset String := fun s =>
    l.toFinset.filter fun x => Relation.ReflTransGen E s x
  refine ⟨fun s => (onward s).card, fun s => ?_, fun s t step => ?_⟩
  · exact (Finset.card_filter_le _ _).trans (List.toFinset_card_le _)
  · refine Finset.card_lt_card ⟨fun x hx => ?_, fun sub => ?_⟩
    · obtain ⟨source, way⟩ := Finset.mem_filter.1 hx
      exact Finset.mem_filter.2 ⟨source, way.head step⟩
    · have here : s ∈ onward s :=
        Finset.mem_filter.2 ⟨List.mem_toFinset.2 (sources s t step), .refl⟩
      exact acyclic s (Relation.TransGen.head' step (Finset.mem_filter.1 (sub here)).2)

end

namespace Bindings

variable {b b' : Bindings} {name s t : String} {items : List String}

/-! ### Chains and cycles of unions in unions -/

/-- A union has a union among its members. -/
def Nests (b : Bindings) (s t : String) : Prop :=
  ∃ items, b.members? s = some items ∧ t ∈ items ∧ b.members? t ≠ none

/-- The unions among the members of a union have numbers smaller than its own, by `k` at least. -/
def Spread (r : String → Nat) (k : Nat) (b : Bindings) (s : String) : Prop :=
  ∀ t, b.Nests s t → r t + k ≤ r s

/-- A union is an alias for its members. -/
theorem next_of_members? (found : b.members? s = some items) : b.next s = items := by
  rw [next, members?_eq_some_iff.1 found]
  rfl

/-- A union nests in another exactly if both are unions and one is an alias for the other. -/
theorem nests_iff : b.Nests s t ↔ t ∈ b.next s ∧ b.members? s ≠ none ∧ b.members? t ≠ none := by
  constructor
  · rintro ⟨items, found, member, union⟩
    exact ⟨next_of_members? found ▸ member, by rw [found]; exact Option.some_ne_none items, union⟩
  · rintro ⟨step, union, union'⟩
    obtain ⟨items, found⟩ := Option.ne_none_iff_exists'.1 union
    exact ⟨items, found, next_of_members? found ▸ step, union'⟩

/-- A union among the members is one of the names its union is an alias for. -/
theorem Nests.next (h : b.Nests s t) : t ∈ b.next s :=
  (nests_iff.1 h).1

/-- What is an alias for something is bound. -/
theorem mem_names_of_next (h : t ∈ b.next s) : s ∈ b.names := by
  by_contra unbound
  rw [next_eq_nil unbound] at h
  cases h

/-- What has members is bound. -/
theorem mem_names_of_members? (found : b.members? s = some items) : s ∈ b.names := by
  by_contra unbound
  rw [members?, lookup_eq_none_of_notMem unbound] at found
  cases found

/-- The names on a trap of unions in unions are unions. -/
theorem trap_nests_iff {C : String → Prop} :
    Trap b.Nests C ↔ Trap (fun s t => t ∈ b.next s) C ∧ ∀ s, C s → b.members? s ≠ none := by
  constructor
  · intro trap
    refine ⟨⟨trap.inhabited, fun s hs => ?_⟩, fun s hs => ?_⟩
    · obtain ⟨t, ht, step⟩ := trap.closed s hs
      exact ⟨t, ht, step.next⟩
    · obtain ⟨t, -, step⟩ := trap.closed s hs
      exact (nests_iff.1 step).2.1
  · rintro ⟨trap, unions⟩
    refine ⟨trap.inhabited, fun s hs => ?_⟩
    obtain ⟨t, ht, step⟩ := trap.closed s hs
    exact ⟨t, ht, nests_iff.2 ⟨step, unions s hs, unions t ht⟩⟩

namespace Opens

variable (h : b.Opens name items b')
include h

/-- Other names are aliases for what they were. -/
theorem next_of_ne (ne : s ≠ name) : b'.next s = b.next s := by
  rw [Bindings.next, Bindings.next, h.others s ne]

/-- The union opened is an alias for its new members. -/
theorem next_opened : b'.next name = b.expand items :=
  next_of_members? h.opened

/-- A trap of aliases stays one: a member that is in it and is opened has an alias in the trap, and
that takes its place. -/
theorem trap {C : String → Prop} (trap : Trap (fun s t => t ∈ b.next s) C) :
    Trap (fun s t => t ∈ b'.next s) C := by
  refine ⟨trap.inhabited, fun s hs => ?_⟩
  obtain ⟨x, hx, step⟩ := trap.closed s hs
  by_cases e : s = name
  · subst e
    rw [next_of_members? h.bound] at step
    rw [h.next_opened]
    rcases found : b.members? x with _ | sub
    · exact ⟨x, hx, mem_expand.2 (Or.inl ⟨step, found⟩)⟩
    · obtain ⟨y, hy, step'⟩ := trap.closed x hx
      rw [next_of_members? found] at step'
      exact ⟨y, hy, mem_expand.2 (Or.inr ⟨x, step, sub, found, step'⟩)⟩
  · exact ⟨x, hx, by rwa [h.next_of_ne e]⟩

/-- So does a trap of unions in unions, because unions stay unions. -/
theorem trap_nests {C : String → Prop} (trap : Trap b.Nests C) : Trap b'.Nests C := by
  obtain ⟨aliases, unions⟩ := trap_nests_iff.1 trap
  refine trap_nests_iff.2 ⟨h.trap aliases, fun s hs => ?_⟩
  rw [ne_eq, h.members?_eq_none_iff]
  exact unions s hs

/-- Any other union had the unions among its members before. -/
theorem nests_of_ne (ne : s ≠ name) (nests : b'.Nests s t) : b.Nests s t := by
  obtain ⟨items', found, member, union⟩ := nests
  rw [h.members?_of_ne ne] at found
  rw [ne_eq, h.members?_eq_none_iff] at union
  exact ⟨items', found, member, union⟩

/-- A union that is opened is farther from its members than before. -/
theorem spread_opened {r : String → Nat} {k : Nat} (pos : 0 < k)
    (spread : ∀ s, b.Spread r k s) : b'.Spread r (k + 1) name := by
  rintro t ⟨items', found, member, union⟩
  rw [h.opened] at found
  cases found
  rw [ne_eq, h.members?_eq_none_iff] at union
  rcases mem_expand.1 member with ⟨-, none⟩ | ⟨x, hx, sub, found, member'⟩
  · exact absurd none union
  · have first := spread name x ⟨items, h.bound, hx, by rw [found]; exact Option.some_ne_none sub⟩
    have second := spread x t ⟨sub, found, member', union⟩
    omega

end Opens

/-- Where no chain of unions in unions comes back to its beginning, every union can be given a
number greater than those of the unions among its members. -/
theorem exists_spread (acyclic : ∀ s, ¬Relation.TransGen b.Nests s s) :
    ∃ r : String → Nat, (∀ s, r s ≤ b.length) ∧ ∀ s, b.Spread r 1 s := by
  obtain ⟨r, short, less⟩ := exists_rank (l := b.names)
    (fun s t step => mem_names_of_next step.next) acyclic
  rw [names, List.length_map] at short
  exact ⟨r, short, fun s t step => less s t step⟩

/-! ### All passes -/

/-- Nothing stands twice where repetitions are dropped. -/
theorem nodup_eraseDups (l : List String) : l.eraseDups.Nodup := by
  induction l using filter_induction with
  | nil => exact List.nodup_nil
  | cons a rest ih =>
    rw [List.eraseDups_cons]
    refine List.nodup_cons.2 ⟨fun again => ?_, ih _⟩
    simpa using (List.mem_filter.1 (List.mem_eraseDups.1 again)).2

/-- Where nothing stands twice nothing is dropped. -/
theorem eraseDups_of_nodup {texts : List String} (distinct : texts.Nodup) :
    texts.eraseDups = texts := by
  induction texts with
  | nil => rfl
  | cons s rest ih =>
    obtain ⟨new, distinct⟩ := List.nodup_cons.1 distinct
    have kept : rest.filter (fun x => !x == s) = rest := by
      refine List.filter_eq_self.2 fun x hx => ?_
      have : x ≠ s := fun e => new (e ▸ hx)
      simpa using this
    rw [List.eraseDups_cons, kept, ih distinct]

section pass

variable {opened : Bool} (h : pass [] b = .ok (b', opened)) (distinct : b.names.Nodup)
include h distinct

/-- What opening preserves a pass preserves. -/
theorem pass_preserves {I : Bindings → Prop}
    (opens : ∀ c x members c', c.Opens x members c' → I c → I c') (start : I b) : I b' :=
  pass_rule (I := fun _ => I) h distinct (fun _ _ _ _ held => held)
    (fun _ c x members c' hc _ held => opens c x members c' hc held) start

/-- A pass binds the same names in the same order. -/
theorem pass_names : b'.names = b.names :=
  pass_preserves (I := fun c => c.names = b.names) h distinct
    (fun _ _ _ _ hc names => hc.names.trans names) rfl

/-- What a name gains when its union is opened, and keeps when another one is, all names have after
a pass; `J` holds all the time. -/
theorem pass_each {J : Bindings → Prop} {Q : Bindings → String → Prop} (start : J b)
    (steady : ∀ c x members c', c.Opens x members c' → J c → J c')
    (other : ∀ c s, c.members? s = none → Q c s)
    (keeps : ∀ c x members c' s, c.Opens x members c' → s ≠ x → Q c s → Q c' s)
    (gains : ∀ c x members c', c.Opens x members c' →
      (opened = false → ∀ y ∈ members, c.members? y = none) → J c → Q c' x) (s : String) :
    Q b' s := by
  have all := pass_rule (I := fun dealt c => J c ∧ ∀ s ∈ dealt, Q c s) h distinct ?_ ?_
    ⟨start, fun s hs => absurd hs List.not_mem_nil⟩
  · rcases found : b'.members? s with _ | items
    · exact other b' s found
    · refine all.2 s ?_
      by_contra unbound
      rw [members?, lookup_eq_none_of_notMem unbound] at found
      cases found
  · rintro dealt c x none ⟨held, each⟩
    refine ⟨held, fun s hs => ?_⟩
    rcases List.mem_append.1 hs with hs | hs
    · exact each s hs
    · exact List.mem_singleton.1 hs ▸ other c x none
  · rintro dealt c x members c' hc seen ⟨held, each⟩
    refine ⟨steady c x members c' hc held, fun s hs => ?_⟩
    by_cases e : s = x
    · exact e ▸ gains c x members c' hc seen held
    · rcases List.mem_append.1 hs with hs | hs
      · exact keeps c x members c' s hc e (each s hs)
      · exact absurd (List.mem_singleton.1 hs) e

/-- After a pass no union repeats a member. -/
theorem pass_distinct (found : b'.members? s = some items) : items.Nodup := by
  refine pass_each (J := fun _ => True) (Q := fun c s => ∀ items, c.members? s = some items →
    items.Nodup) h distinct trivial (fun _ _ _ _ _ _ => trivial) ?_ ?_ ?_ s items found
  · intro c s none items found
    rw [none] at found
    cases found
  · intro c x members c' s hc ne held items found
    rw [hc.members?_of_ne ne] at found
    exact held items found
  · intro c x members c' hc _ _ items found
    rw [hc.opened] at found
    cases found
    exact nodup_eraseDups _

/-- A pass that reports nothing opened leaves no union among the members of a union. -/
theorem pass_not_nests (nothing : opened = false) (s t : String) : ¬b'.Nests s t := by
  refine pass_each (J := fun _ => True) (Q := fun c s => ∀ t, ¬c.Nests s t) h distinct trivial
    (fun _ _ _ _ _ _ => trivial) ?_ ?_ ?_ s t
  · rintro c s none t ⟨items, found, -, -⟩
    rw [none] at found
    cases found
  · intro c x members c' s hc ne held t nests
    exact held t (hc.nests_of_ne ne nests)
  · rintro c x members c' hc seen - t ⟨items, found, member, union⟩
    rw [ne_eq, hc.members?_eq_none_iff] at union
    rw [hc.opened] at found
    cases found
    rcases mem_expand.1 member with ⟨-, none⟩ | ⟨y, hy, sub, found, -⟩
    · exact union none
    · rw [seen nothing y hy] at found
      cases found

/-- After a pass all unions are farther from their members. -/
theorem pass_spread {r : String → Nat} {k : Nat} (pos : 0 < k) (spread : ∀ s, b.Spread r k s)
    (s : String) : b'.Spread r (k + 1) s := by
  refine pass_each (J := fun c => ∀ s, c.Spread r k s) (Q := fun c s => c.Spread r (k + 1) s) h
    distinct spread ?_ ?_ ?_ ?_ s
  · intro c x members c' hc near s
    by_cases e : s = x
    · subst e
      exact fun t nests => Nat.le_of_succ_le (hc.spread_opened pos near t nests)
    · exact fun t nests => near s t (hc.nests_of_ne e nests)
  · rintro c s none t ⟨items, found, -, -⟩
    rw [none] at found
    cases found
  · exact fun c x members c' s hc ne far t nests => far t (hc.nests_of_ne ne nests)
  · exact fun c x members c' hc _ near => hc.spread_opened pos near

end pass

/-- No member of a union is a union, and none is repeated. -/
structure Flat (b : Bindings) : Prop where
  apart : ∀ s t, ¬b.Nests s t
  distinct : ∀ s items, b.members? s = some items → items.Nodup

variable {count count' fuel : Nat}

/-- What opening preserves flattening preserves. -/
theorem passes_rule {I : Bindings → Prop} (h : b.passes count fuel = .ok (b', count'))
    (distinct : b.names.Nodup) (opens : ∀ c x members c', c.Opens x members c' → I c → I c')
    (start : I b) : I b' := by
  induction fuel generalizing b count with
  | zero =>
    rw [passes] at h
    cases h
    exact start
  | succ fuel ih =>
    rw [passes] at h
    split at h
    · cases h
    · next c opened passed =>
      have step : I c := pass_preserves passed distinct opens start
      split at h
      · exact ih h (by rw [pass_names passed distinct]; exact distinct) step
      · cases h
        exact step

/-- Passes that may go on for longer than there is a way from a union to one of its members end with
no union among the members of one. -/
theorem passes_flat {r : String → Nat} {k : Nat} (h : b.passes count fuel = .ok (b', count'))
    (distinct : b.names.Nodup) (pos : 0 < k) (spread : ∀ s, b.Spread r k s)
    (short : ∀ s, r s < k + fuel)
    (once : fuel = 0 → ∀ s items, b.members? s = some items → items.Nodup) : b'.Flat := by
  induction fuel generalizing b count k with
  | zero =>
    rw [passes] at h
    cases h
    refine ⟨fun s t nests => ?_, once rfl⟩
    have far := spread s t nests
    have near := short s
    omega
  | succ fuel ih =>
    rw [passes] at h
    split at h
    · cases h
    · next c opened passed =>
      have kept : ∀ s items, c.members? s = some items → items.Nodup :=
        fun s items => pass_distinct passed distinct
      split at h
      · refine ih h (by rw [pass_names passed distinct]; exact distinct) (Nat.succ_pos k)
          (pass_spread passed distinct pos spread) (fun s => ?_) fun _ => kept
        have near := short s
        omega
      · next nothing =>
        cases h
        exact ⟨pass_not_nests passed distinct (Bool.not_eq_true _ ▸ nothing), kept⟩

section flatten

variable (h : b.flatten = .ok (b', count)) (distinct : b.names.Nodup)
include h distinct

/-- Flattening keeps the trees of every name. -/
theorem flatten_yields_iff (tags : ∀ s, isTag s = true → b.lookup s = none) (s : String)
    (t : Tree) : b'.Yields s t ↔ b.Yields s t := by
  have kept := passes_rule (I := fun c => (∀ s, isTag s = true → c.lookup s = none) ∧
    ∀ s t, c.Yields s t ↔ b.Yields s t) h distinct ?_ ⟨tags, fun _ _ => Iff.rfl⟩
  · exact kept.2 s t
  · rintro c x members c' hc ⟨tags, same⟩
    refine ⟨hc.untagged tags, fun s t => ?_⟩
    rw [← same s t]
    exact ⟨hc.yields_before tags, hc.yields_after tags⟩

/-- Where no chain of unions in unions comes back to its beginning after flattening, none did
before, and there is no such chain left. -/
theorem flatten_flat (acyclic : ∀ s, ¬Relation.TransGen b'.Nests s s) : b'.Flat := by
  obtain ⟨r', -, spread'⟩ := exists_spread acyclic
  have before : ∀ s, ¬Relation.TransGen b.Nests s s := fun s cycle =>
    not_trap_of_rank (fun s t step => spread' s t step) _
      (passes_rule h distinct (fun c x members c' hc trap => hc.trap_nests trap)
        (trap_of_cycle cycle))
  obtain ⟨r, short, spread⟩ := exists_spread before
  refine passes_flat h distinct Nat.one_pos spread (fun s => ?_) fun none => ?_
  · have := short s
    omega
  · omega

end flatten

end Bindings

end TreeGrammar
