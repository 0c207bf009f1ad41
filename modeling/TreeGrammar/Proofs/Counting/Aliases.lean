import Mathlib.Logic.Relation
import TreeGrammar.Proofs.Counting.Plain

/-!
# Counting and cycles of aliases

A count can be asked for again while it is being found only along aliases: the members of a union,
and the item of a product of one item where inner nodes do not count. Any other item of a product
has a smaller size. So in a closed grammar counting fails exactly if some name is an alias for
itself.

Types that are being counted are told apart by canonical form, and two names may be bound to types
of one form. A type that is met again under another name is still met on a cycle of *names*: the
other name has the same aliases, so a way from it back to this name is one from this name as well.

* `Ty.aliases`, `Grammar.Alias`: what a type, and a name, is an alias for.
* `Grammar.Closed`: nothing is missing.
* `plain_failsOnly`: names that are bound nowhere, and cycles, are all that makes a count fail.
* `plain_not_ok_of_cycle`: on a cycle no positive size has a count.
-/

namespace TreeGrammar

/-- The items of which a tree costs no less than a tree of the type. -/
def Ty.aliases (mode : Accounting) : Ty → List Ref
  | union items => items
  | product [r] =>
    match mode with
    | .leaves => [r]
    | .nodes => []
  | _ => []

namespace Grammar

variable (g : Grammar) (mode : Accounting)

/-- A name is an alias for a name or a tag. -/
def Alias (s t : String) : Prop :=
  ∃ type, g.get? s = some type ∧ .name t ∈ type.aliases mode

/-- A name or a tag with a meaning. -/
def Accounts (r : Ref) : Prop :=
  ∃ s, r = .name s ∧ (isTag s = true ∨ ∃ t, g.get? s = some t)

/-- No tag is bound, and every item is a tag or bound. -/
structure Closed : Prop where
  names : ∀ s t, g.get? s = some t → ¬isTag s = true
  items : ∀ s t, g.get? s = some t → ∀ r ∈ t.items, g.Accounts r

/-- Some name reaches itself through aliases. -/
def Cyclic : Prop :=
  ∃ s, Relation.TransGen (g.Alias mode) s s

/-- Every form in `active` is that of a type from which `s` is reached through aliases. -/
def Above (active : List String) (s : String) : Prop :=
  ∀ key ∈ active, ∃ t x, Ty.canonical t = key ∧ .name x ∈ t.aliases mode ∧
    Relation.ReflTransGen (g.Alias mode) x s

variable {g mode}

/-- While nothing is being counted no form is that of a type above. -/
theorem Above.nil (s : String) : g.Above mode [] s := fun _ h => absurd h List.not_mem_nil

/-- A name that is bound has a type. -/
theorem exists_get?_of_mem_names {name : String} (h : name ∈ g.names) :
    ∃ t, g.get? name = some t :=
  exists_lookup_of_mem h

/-- A name that has a type is bound. -/
theorem mem_names_of_get? {name : String} {t : Ty} (h : g.get? name = some t) : name ∈ g.names :=
  List.mem_map.2 ⟨_, mem_of_lookup h, rfl⟩

/-- A name with a meaning is accounted for. -/
theorem accounts_of_known {name : String} (known : isTag name = true ∨ name ∈ g.names) :
    g.Accounts (.name name) :=
  ⟨name, rfl, known.imp_right exists_get?_of_mem_names⟩

end Grammar

/-- A leaf is no alias. -/
theorem Ty.not_isLeaf_of_mem_aliases {mode : Accounting} {t : Ty} {r : Ref}
    (h : r ∈ t.aliases mode) : ¬t.isLeaf = true := by
  intro leaf
  obtain ⟨tag, rfl⟩ | rfl := Ty.isLeaf_iff.1 leaf
  · cases h
  · cases h

/-- Types with one canonical form are aliases for the same names. -/
theorem Ty.name_mem_aliases_congr {mode : Accounting} {t t' : Ty} {s : String}
    (form : t.canonical = t'.canonical) (h : .name s ∈ t.aliases mode) :
    .name s ∈ t'.aliases mode := by
  obtain ⟨tag, rfl, rfl⟩ | ⟨items, items', rfl, rfl, same⟩ | ⟨items, items', rfl, rfl, perm⟩ :=
    Ty.canonical_cases form
  · exact h
  · match items, mode, h with
    | [r], .leaves, h =>
      obtain rfl : Ref.name s = r := List.mem_singleton.1 h
      obtain ⟨r', rfl, form'⟩ := List.map_eq_singleton_iff.1 same.symm
      rw [Ref.eq_name_of_canonical form']
      exact List.mem_singleton_self _
  · obtain ⟨r', member, form'⟩ := List.mem_map.1 (perm.subset (List.mem_map_of_mem h))
    rw [Ref.eq_name_of_canonical form'] at member
    exact member

section plain

variable {g : Grammar} {mode : Accounting}

/-! ### What makes a count fail -/

/-- A computation fails only with a name that is bound nowhere, if something is missing, and with a
cycle, for a reason. -/
def FailsOnly {α : Type} (missing reason : Prop) (x : Except Failure α) : Prop :=
  ∀ e, x = .error e → ((∃ name, e = .undefinedName name none) ∧ missing) ∨
    ((∃ key n, e = .inconsistent (.cycle key n)) ∧ reason)

namespace FailsOnly

variable {α β : Type} {missing reason : Prop}

/-- A success does not fail. -/
theorem ok (a : α) : FailsOnly missing reason (.ok a : Except Failure α) := fun _ h => nomatch h

/-- A name that is bound nowhere may be missing. -/
theorem undefined (name : String) (h : missing) :
    FailsOnly missing reason (.error (.undefinedName name none) : Except Failure α) := by
  rintro e ⟨⟩
  exact Or.inl ⟨⟨name, rfl⟩, h⟩

/-- A cycle may have its reason. -/
theorem cycle (key : String) (n : Nat) (h : reason) :
    FailsOnly missing reason (.error (.inconsistent (.cycle key n)) : Except Failure α) := by
  rintro e ⟨⟩
  exact Or.inr ⟨⟨key, n, rfl⟩, h⟩

/-- What goes on with a result fails only as either part does. -/
theorem bind {x : Except Failure α} {f : α → Except Failure β} (hx : FailsOnly missing reason x)
    (hf : ∀ a, FailsOnly missing reason (f a)) : FailsOnly missing reason (x >>= f) := by
  intro e h
  rcases Except.bind_error_iff.1 h with h | ⟨a, _, h⟩
  · exact hx e h
  · exact hf a e h

/-- Where nothing is missing and there is no reason for a cycle there is a result. -/
theorem exists_ok {x : Except Failure α} (hx : FailsOnly missing reason x) (complete : ¬missing)
    (h : ¬reason) : ∃ a, x = .ok a := by
  rcases x with e | a
  · rcases hx e rfl with ⟨-, m⟩ | ⟨-, r⟩
    · exact absurd m complete
    · exact absurd r h
  · exact ⟨a, rfl⟩

end FailsOnly

/-- A type that is met again stands on a cycle of names. The type under which its form was met first
may be another one, but the first step from there is a step from this one too. -/
theorem Grammar.Above.cyclic {active : List String} {s : String} {t : Ty}
    (above : g.Above mode active s) (found : g.get? s = some t) (met : t.canonical ∈ active) :
    g.Cyclic mode := by
  obtain ⟨t', x, form, member, way⟩ := above _ met
  have step : g.Alias mode s x := ⟨t, found, Ty.name_mem_aliases_congr form member⟩
  exact ⟨s, Relation.TransGen.head' step way⟩

/-- A type is above all that it is an alias for, and so is what is above the type. -/
theorem Grammar.Above.step {active : List String} {s : String} {t : Ty}
    (above : g.Above mode active s)
    (found : g.get? s = some t) {x : String} (member : .name x ∈ t.aliases mode) :
    g.Above mode (t.canonical :: active) x := by
  intro key hk
  rcases List.mem_cons.1 hk with rfl | hk
  · exact ⟨t, x, rfl, member, .refl⟩
  · obtain ⟨t', x', form, member', way⟩ := above key hk
    exact ⟨t', x', form, member', way.tail ⟨t, found, member⟩⟩

/-- A count fails only with a name that is bound nowhere, and in a closed grammar not with that; and
with a cycle only if some name is an alias for itself. The induction carries along that what is
being counted is reached, through aliases, from every type being counted at the size. -/
theorem plain_failsOnly {missing : Prop} (closed : ¬missing → g.Closed) :
    (∀ active r n, (¬missing → g.Accounts r) → (∀ s, r = .name s → g.Above mode active s) →
      FailsOnly missing (g.Cyclic mode) ((g.plain mode).countRef active r n)) ∧
    (∀ active t n, (∀ r ∈ t.items, ¬missing → g.Accounts r) →
      (∀ x, .name x ∈ t.aliases mode → g.Above mode active x) →
      FailsOnly missing (g.Cyclic mode) ((g.plain mode).countBody active t n)) ∧
    (∀ active items n, (∀ r ∈ items, ¬missing → g.Accounts r) →
      (∀ s, items = [.name s] → g.Above mode active s) →
      FailsOnly missing (g.Cyclic mode) ((g.plain mode).countSequences active items n)) ∧
    (∀ head second rest n i, (∀ r ∈ head :: second :: rest, ¬missing → g.Accounts r) →
      FailsOnly missing (g.Cyclic mode) ((g.plain mode).countSplits head second rest n i)) ∧
    (∀ active items n, (∀ r ∈ items, ¬missing → g.Accounts r) →
      (∀ s, .name s ∈ items → g.Above mode active s) →
      FailsOnly missing (g.Cyclic mode) ((g.plain mode).countMembers active items n)) := by
  apply Recurrence.induction (g.plain mode)
  case zero =>
    intro active r _ _
    rw [Recurrence.countRef_zero]
    exact FailsOnly.ok 0
  case nameless =>
    intro active r n hn nameless accounts _
    rw [Recurrence.countRef_nameless _ nameless hn]
    refine FailsOnly.undefined _ ?_
    by_contra complete
    obtain ⟨s, rfl, -⟩ := accounts complete
    exact nameless s rfl
  case tag =>
    intro active s n hn tag _ _
    rw [Recurrence.countRef_tag _ tag hn]
    exact FailsOnly.ok _
  case unbound =>
    intro active s n hn tag found accounts _
    rw [Recurrence.countRef_unbound _ tag found hn]
    refine FailsOnly.undefined _ ?_
    by_contra complete
    obtain ⟨_, e, known⟩ := accounts complete
    cases e
    obtain tag' | ⟨t, bound⟩ := known
    · exact tag tag'
    · have found' : (g.plain mode).rules.lookup s = some (.ofTy t) :=
        Grammar.lookup_rules_of_bound bound
      rw [found'] at found
      cases found
  case leaf =>
    intro active s n rule hn tag found leaf _ _
    rw [Recurrence.countRef_leaf _ tag found leaf hn]
    exact FailsOnly.ok _
  case met =>
    intro active s n rule hn tag found leaf met _ above
    -- a type that is met again lies above itself, which is a cycle of aliases
    rw [Recurrence.countRef_active _ tag found leaf met hn]
    rw [rule.key_eq] at met
    exact FailsOnly.cycle _ _ ((above s rfl).cyclic (g.get?_of_lookup_rules found) met)
  case new =>
    intro active s n rule hn tag found leaf new ih accounts above
    have bound := g.get?_of_lookup_rules found
    rw [Recurrence.countRef_new _ tag found leaf new hn]
    refine ih (fun r hr complete => (closed complete).items s _ bound r hr) fun x member => ?_
    rw [rule.key_eq]
    exact (above s rfl).step bound member
  case value =>
    intro active t n _ _
    rw [Recurrence.countBody_value]
    exact FailsOnly.ok _
  case union =>
    intro active items n ih accounts above
    rw [Recurrence.countBody_union]
    exact ih accounts above
  case free =>
    intro active items n leaves ih accounts above
    obtain rfl : mode = .leaves := leaves
    rw [Recurrence.countBody_product_leaves _ items rfl]
    refine ih accounts fun x e => above x ?_
    rw [e]
    exact List.mem_singleton_self _
  case costly_zero =>
    intro active items nodes _ _
    rw [Recurrence.countBody_product_nodes_zero _ items nodes]
    exact FailsOnly.ok 0
  case costly =>
    intro active items n nodes hn ih accounts _
    -- the size is smaller inside the node, and nothing is being counted there yet
    rw [Recurrence.countBody_product_nodes _ items nodes hn]
    exact ih accounts fun x _ => .nil x
  case empty =>
    intro active n _ _
    rw [Recurrence.countSequences_nil]
    exact FailsOnly.ok 0
  case single =>
    intro active r n ih accounts above
    rw [Recurrence.countSequences_single]
    exact ih (accounts r (List.mem_singleton_self r)) fun s e => above s (by rw [e])
  case short =>
    intro active head second rest n short _ _
    rw [Recurrence.countSequences_short _ _ _ _ short]
    exact FailsOnly.ok 0
  case long =>
    intro active head second rest n long ih accounts _
    rw [Recurrence.countSequences_long _ _ _ _ long]
    exact ih accounts
  case fits =>
    intro head second rest n i fits ih₁ ih₂ ih₃ accounts
    rw [Recurrence.countSplits_fits _ _ _ _ fits]
    have first := ih₁ (accounts head List.mem_cons_self) fun s _ => .nil s
    have others := ih₂ (fun r h => accounts r (List.mem_cons_of_mem _ h)) fun s _ => .nil s
    refine first.bind fun a => others.bind fun b => (ih₃ accounts).bind fun c => ?_
    exact FailsOnly.ok _
  case stop =>
    intro head second rest n i stop _
    rw [Recurrence.countSplits_stop _ _ _ _ stop]
    exact FailsOnly.ok 0
  case none =>
    intro active n _ _
    rw [Recurrence.countMembers_nil]
    exact FailsOnly.ok 0
  case some =>
    intro active r rest n ih₁ ih₂ accounts above
    rw [Recurrence.countMembers_cons]
    have first := ih₁ (accounts r List.mem_cons_self)
      fun s e => above s (e ▸ List.mem_cons_self)
    have others := ih₂ (fun r' h => accounts r' (List.mem_cons_of_mem _ h))
      fun s h => above s (List.mem_cons_of_mem _ h)
    exact first.bind fun a => others.bind fun b => FailsOnly.ok _

/-- A reference that is counted by itself. -/
theorem plain_countRef_failsOnly {missing : Prop} (closed : ¬missing → g.Closed) {r : Ref}
    (accounts : ¬missing → g.Accounts r) (n : Nat) :
    FailsOnly missing (g.Cyclic mode) ((g.plain mode).countRef [] r n) :=
  (plain_failsOnly closed).1 [] r n accounts fun s _ => .nil s

/-- A type that is counted by itself, whether the grammar binds it or not. -/
theorem plain_countRule_failsOnly {missing : Prop} (closed : ¬missing → g.Closed) {t : Ty}
    (accounts : ∀ r ∈ t.items, ¬missing → g.Accounts r) (n : Nat) :
    FailsOnly missing (g.Cyclic mode) ((g.plain mode).countRule (.ofTy t) n) := by
  by_cases hn : n = 0
  · subst hn
    rw [Recurrence.countRule_zero]
    exact FailsOnly.ok 0
  · by_cases leaf : t.isLeaf = true
    · rw [Recurrence.countRule_leaf _ leaf hn]
      exact FailsOnly.ok _
    · rw [Recurrence.countRule_body _ leaf hn]
      refine (plain_failsOnly closed).2.1 _ t n accounts fun x member key hk => ?_
      obtain rfl := List.mem_singleton.1 hk
      exact ⟨t, x, rfl, member, .refl⟩

/-- In a closed grammar in which no name is an alias for itself every name and every tag has a count
for every size. -/
theorem plain_countRef_ok (closed : g.Closed) (acyclic : ¬g.Cyclic mode) {r : Ref}
    (accounts : g.Accounts r) (n : Nat) : ∃ v, (g.plain mode).countRef [] r n = .ok v :=
  (plain_countRef_failsOnly (fun _ => closed) (fun _ => accounts) n).exists_ok not_false acyclic

/-- So do several of them together. -/
theorem plain_countSequences_ok (closed : g.Closed) (acyclic : ¬g.Cyclic mode) {items : List Ref}
    (accounts : ∀ r ∈ items, g.Accounts r) (n : Nat) :
    ∃ v, (g.plain mode).countSequences [] items n = .ok v :=
  ((@plain_failsOnly g mode False fun _ => closed).2.2.1 [] items n
    (fun r hr _ => accounts r hr) fun s _ => .nil s).exists_ok not_false acyclic

/-! ### On a cycle every count fails -/

/-- Where a union is counted so is every member. -/
theorem plain_ok_of_member {active : List String} {items : List Ref} {n : Nat} {v : Int}
    (count : (g.plain mode).countMembers active items n = .ok v) {r : Ref} (member : r ∈ items) :
    ∃ w, (g.plain mode).countRef active r n = .ok w := by
  induction items generalizing v with
  | nil => cases member
  | cons r' rest ih =>
    obtain ⟨a, b, ha, hb, -⟩ := (plain_countMembers_cons g mode).1 count
    rcases List.mem_cons.1 member with rfl | member
    · exact ⟨a, ha⟩
    · exact ih hb member

/-- A name has a count only if what it is an alias for has one, while the name's type is being
counted. -/
theorem plain_ok_of_alias (closed : g.Closed) {active : List String} {s t : String} {n : Nat}
    {v : Int}
    {type : Ty} (found : g.get? s = some type) (member : .name t ∈ type.aliases mode) (hn : n ≠ 0)
    (count : (g.plain mode).countRef active (.name s) n = .ok v) :
    type.canonical ∉ active ∧
      ∃ w, (g.plain mode).countRef (type.canonical :: active) (.name t) n = .ok w := by
  have tag := closed.names s type found
  rw [plain_countRef_bound g mode tag found (Ty.not_isLeaf_of_mem_aliases member) hn] at count
  by_cases met : type.canonical ∈ active
  · rw [if_pos met] at count
    cases count
  · rw [if_neg met] at count
    refine ⟨met, ?_⟩
    rcases type with tag | items | items
    · cases member
    · match items, mode, member with
      | [r], .leaves, member =>
        obtain rfl : Ref.name t = r := List.mem_singleton.1 member
        rw [Recurrence.countBody_product_leaves _ _ rfl, Recurrence.countSequences_single] at count
        exact ⟨v, count⟩
    · rw [Recurrence.countBody_union] at count
      exact plain_ok_of_member count member

/-- A name that is an alias for itself has no count: along the cycle its type is being counted, and
in the end it is met again. -/
theorem plain_not_ok_of_cycle (closed : g.Closed) {s : String}
    (cycle : Relation.TransGen (g.Alias mode) s s) {n : Nat} (hn : n ≠ 0) (v : Int) :
    ¬(g.plain mode).countRef [] (.name s) n = .ok v := by
  intro count
  obtain ⟨_, ⟨type, found, member⟩, _⟩ := Relation.TransGen.head'_iff.1 cycle
  have leaf := Ty.not_isLeaf_of_mem_aliases member
  have along : ∀ t, Relation.TransGen (g.Alias mode) s t → ∃ active w,
      type.canonical ∈ active ∧ (g.plain mode).countRef active (.name t) n = .ok w := by
    intro t way
    induction way with
    | single step =>
      obtain ⟨type', found', member'⟩ := step
      obtain rfl := Option.some.inj (found.symm.trans found')
      obtain ⟨-, w, count'⟩ := plain_ok_of_alias closed found member' hn count
      exact ⟨_, w, List.mem_cons_self, count'⟩
    | tail _ step ih =>
      obtain ⟨active, w, met, count'⟩ := ih
      obtain ⟨type', found', member'⟩ := step
      obtain ⟨-, w', count''⟩ := plain_ok_of_alias closed found' member' hn count'
      exact ⟨_, w', List.mem_cons_of_mem _ met, count''⟩
  obtain ⟨active, w, met, count'⟩ := along s cycle
  rw [plain_countRef_bound g mode (closed.names s type found) found leaf hn, if_pos met] at count'
  cases count'

end plain

end TreeGrammar
