import TreeGrammar.Proofs.Bindings.Normal
import TreeGrammar.Proofs.Samplers.Calls

/-!
# What samplers count

Over the grammars that normalisation returns a sampler counts derivations, and no call fails. Over
other closed grammars a call may meet a type again at the same size, and that happens exactly if
some name is an alias for itself.

* `count_eq_derivations`: counts are exact, for every size.
* `Sampler.NeverInconsistent`: no call meets a cycle.
* `inconsistent_iff_cyclic`: which grammars have samplers that meet one, what the check of bindings
  has to do with it, and why no call fails over a grammar that normalisation returned.
-/

namespace TreeGrammar

namespace Grammar

variable {g : Grammar}

/-- Sizes may be any whole numbers; there is nothing of size zero or less. -/
theorem derivations_toNat (mode : Accounting) (r : Ref) (n : Int) :
    {d | g.Derives r d ∧ (d.tree.size mode : Int) = n} = g.derivations mode r n.toNat := by
  ext d
  have positive := d.tree.size_pos mode
  constructor
  · rintro ⟨derives, size⟩
    exact ⟨derives, show d.tree.size mode = n.toNat by omega⟩
  · rintro ⟨derives, size⟩
    have size' : d.tree.size mode = n.toNat := size
    exact ⟨derives, by omega⟩

end Grammar

/-! ### Counts are exact -/

/-- Over a grammar that normalisation returns a call for a count is answered with the number of
derivations. -/
theorem Sampler.Sound.exists_counts {g : Grammar} {mode : Accounting} {s : Sampler}
    (sound : s.Sound g mode) (normal : g.Normal) {name : String}
    (known : isTag name = true ∨ name ∈ g.names) (n : Int) :
    ∃ k : ℕ, (s.count name n).1 = .ok (k : Int) ∧
      (g.plain mode).countRef [] (.name name) n.toNat = .ok (k : Int) ∧
      Counts k (g.derivations mode (.name name) n.toNat) := by
  obtain ⟨v, count⟩ := plain_countRef_ok normal.closed (normal.acyclic mode)
    (Grammar.accounts_of_known known) n.toNat
  have counts := (plain_counts g mode).1 [] (.name name) n.toNat v count
  rw [← counts.card] at count
  exact ⟨_, (sound.count name n).trans count, count, counts.finite, rfl⟩

/-- Over a grammar that normalisation returned, the count of a bound name or a tag is the number of
its derivations whose trees have the size, whatever the size. -/
theorem count_eq_derivations {ds : List Definition} {events : List Event} {g : Grammar}
    (built : Grammar.ofDefinitions? ds = (events, .ok g)) (mode : Accounting) (source : Source)
    {name : String} (known : isTag name = true ∨ name ∈ g.names) (n : Int) :
    ∃ k : ℕ, ((Sampler.ofGrammar g mode source).count name n).1 = .ok (k : Int) ∧
      {d | g.Derives (.name name) d ∧ (d.tree.size mode : Int) = n}.encard = k := by
  have normal := Grammar.ofDefinitions?_normal built
  have sound : (Sampler.ofGrammar g mode source).Sound g mode := Sampler.sound_ofGrammar source
  obtain ⟨k, answer, -, counts⟩ := sound.exists_counts normal known n
  refine ⟨k, answer, ?_⟩
  rw [Grammar.derivations_toNat, counts.encard]

/-- There are as many binary trees with three leaves as the count says. -/
theorem count_eq_derivations_binary :
    ∃ k : ℕ, ((Sampler.ofGrammar binary .leaves (.ofState 0)).count "B" 3).1 = .ok (k : Int) ∧
      {d | binary.Derives (.name "B") d ∧ (d.tree.size .leaves : Int) = 3}.encard = k :=
  count_eq_derivations binary_built .leaves (.ofState 0) (Or.inr (by decide)) 3

/-! ### Cycles -/

/-- No call of a sampler meets a type again that is being counted at the same size. -/
structure Sampler.NeverInconsistent (s : Sampler) : Prop where
  count : ∀ name n why, (s.count name n).1 ≠ .error (.inconsistent why)
  countType : ∀ t n why, (s.countType t n).1 ≠ .error (.inconsistent why)
  sizes : ∀ name last why, (s.sizes name last).1 ≠ .error (.inconsistent why)
  generate : ∀ name n, (s.generation name n).Always fun out =>
    ∀ why, out.1 ≠ .error (.inconsistent why)

section

variable {g : Grammar} {mode : Accounting} {s : Sampler}

/-- Over a grammar in which no name is an alias for itself, closed or not, no call meets a cycle. -/
theorem Sampler.Sound.neverInconsistent (sound : s.Sound g mode) (acyclic : ¬g.Cyclic mode) :
    s.NeverInconsistent := by
  have only : ∀ {x : Except Failure Int}, FailsOnly True (g.Cyclic mode) x →
      ∀ why, x ≠ .error (.inconsistent why) := by
    intro x fails why h
    rcases fails _ h with ⟨⟨name, e⟩, -⟩ | ⟨-, cyclic⟩
    · cases e
    · exact acyclic cyclic
  have counts : ∀ name n why,
      (g.plain mode).countRef [] (.name name) n ≠ .error (.inconsistent why) :=
    fun name n => only (plain_countRef_failsOnly (absurd trivial) (absurd trivial) n)
  refine ⟨fun name n why => ?_, fun t n why => ?_, fun name last why failed => ?_, fun name n => ?_⟩
  · rw [sound.count]
    exact counts name n.toNat why
  · rw [Sampler.countType, sound.recurrence_eq, (sound.tally (answers_countRule g mode _ _)).1]
    exact only (plain_countRule_failsOnly (absurd trivial) (fun _ _ => absurd trivial) _) why
  · obtain ⟨n, failed'⟩ := sound.sizes_failed failed
    exact counts name n why failed'
  · refine (sound.always_sound name n).mono fun out h why failed => ?_
    rcases h.2 _ failed with ⟨-, e⟩ | failed'
    · cases e
    · exact counts name n.toNat why failed'

/-- Over a grammar that normalisation returned no call for a bound name or a tag fails. -/
theorem Sampler.Sound.calls_ok (sound : s.Sound g mode) (normal : g.Normal) {name : String}
    (accounts : g.Accounts (.name name)) :
    (∀ n, ∃ v, (s.count name n).1 = .ok v) ∧ (∀ last, ∃ sizes, (s.sizes name last).1 = .ok sizes) ∧
      ∀ n, (s.generation name n).Always fun out => ∃ sample, out.1 = .ok sample := by
  have counts : ∀ n, ∃ v, (g.plain mode).countRef [] (.name name) n = .ok v :=
    plain_countRef_ok normal.closed (normal.acyclic mode) accounts
  have never : ∀ {n e}, (g.plain mode).countRef [] (.name name) n ≠ .error e := by
    intro n e failed
    obtain ⟨v, count⟩ := counts n
    rw [count] at failed
    cases failed
  refine ⟨fun n => ?_, fun last => ?_, fun n => ?_⟩
  · rw [sound.count]
    exact counts n.toNat
  · rcases result : (s.sizes name last).1 with e | sizes
    · obtain ⟨n, failed⟩ := sound.sizes_failed result
      exact absurd failed never
    · exact ⟨sizes, rfl⟩
  · refine (sound.always_sound name n).mono ?_
    rintro ⟨e | sample, table⟩ h
    · rcases h.2 e rfl with ⟨unknown, -⟩ | failed
      · exact absurd accounts unknown
      · exact absurd failed never
    · exact ⟨sample, rfl⟩

/-- In a closed grammar a fresh sampler meets a cycle for some bound name and some positive size
exactly if some name is an alias for itself. -/
theorem exists_inconsistent_iff (closed : g.Closed) (mode : Accounting) (source : Source) :
    (∃ name ∈ g.names, ∃ n : Int, 1 ≤ n ∧ ∃ why,
      ((Sampler.ofGrammar g mode source).count name n).1 = .error (.inconsistent why)) ↔
      g.Cyclic mode := by
  have sound : (Sampler.ofGrammar g mode source).Sound g mode := Sampler.sound_ofGrammar source
  constructor
  · rintro ⟨name, -, n, -, why, failed⟩
    by_contra acyclic
    exact (sound.neverInconsistent acyclic).count name n why failed
  · rintro ⟨name, cycle⟩
    obtain ⟨_, ⟨t, bound, _⟩, _⟩ := Relation.TransGen.head'_iff.1 cycle
    refine ⟨name, Grammar.mem_names_of_get? bound, 1, le_rfl, ?_⟩
    rw [sound.count]
    have accounts : g.Accounts (.name name) := ⟨name, rfl, Or.inr ⟨t, bound⟩⟩
    have fails : FailsOnly False (g.Cyclic mode) ((g.plain mode).countRef [] (.name name) 1) :=
      plain_countRef_failsOnly (fun _ => closed) (fun _ => accounts) 1
    rcases count : (g.plain mode).countRef [] (.name name) 1 with e | v
    · obtain ⟨-, none⟩ | ⟨⟨key, size, rfl⟩, -⟩ := fails e count
      · exact none.elim
      · exact ⟨_, count⟩
    · exact absurd count (plain_not_ok_of_cycle closed cycle one_ne_zero v)

end

/-- A count meets a cycle exactly where there is a cycle of aliases. So in bindings that are closed
the check finds nothing exactly if no call of a sampler that counts leaves only ever meets one,
whatever it was asked before. And over a grammar that normalisation returned no call for a bound
name or a tag fails at all, whatever counts as size, whatever the size, and whatever is drawn. -/
theorem inconsistent_iff_cyclic :
    (∀ g : Grammar, g.Closed → ∀ (mode : Accounting) (source : Source),
      (∃ name ∈ g.names, ∃ n : Int, 1 ≤ n ∧ ∃ why,
        ((Sampler.ofGrammar g mode source).count name n).1 = .error (.inconsistent why)) ↔
      ∃ name, Relation.TransGen (g.Alias mode) name name) ∧
    (∀ b : Bindings, b.names.Nodup → (Grammar.ofBindings b).Closed →
      (b.selfAlias? = none ↔
        ∀ s, Sampler.Reachable (Grammar.ofBindings b) .leaves s → s.NeverInconsistent)) ∧
    (∀ (ds : List Definition) (events : List Event) (g : Grammar),
      Grammar.ofDefinitions? ds = (events, .ok g) → ∀ (mode : Accounting) (s : Sampler),
      s.Reachable g mode → ∀ name, isTag name = true ∨ name ∈ g.names →
      (∀ n, ∃ v, (s.count name n).1 = .ok v) ∧
      (∀ last, ∃ sizes, (s.sizes name last).1 = .ok sizes) ∧
      ∀ n, (s.generation name n).Always fun out => ∃ sample, out.1 = .ok sample) := by
  refine ⟨fun g closed mode source => exists_inconsistent_iff closed mode source,
    fun b names closed => ?_, fun ds events g built mode s reachable name known => ?_⟩
  · rw [Bindings.selfAlias?_eq_none_iff names closed]
    constructor
    · exact fun acyclic s reachable => reachable.sound.neverInconsistent acyclic
    · intro never cyclic
      obtain ⟨name, -, n, -, why, failed⟩ :=
        (exists_inconsistent_iff closed .leaves (.ofState 0)).2 cyclic
      exact (never _ (.fresh _)).count name n why failed
  · exact reachable.sound.calls_ok (Grammar.ofDefinitions?_normal built)
      (Grammar.accounts_of_known known)

/-- Two names for one type, which is an alias for the second of them. -/
def twins : Bindings :=
  [("A", .product ["B"]), ("B", .product ["B"])]

/-- Nothing is missing from the grammar of the twins. -/
theorem twins_closed : (Grammar.ofBindings twins).Closed :=
  Bindings.closed_ofBindings (by decide) (by decide)

/-- The twins meet a cycle, binary trees never do, and no call for them fails. -/
theorem inconsistent_iff_cyclic_twins :
    (∃ name ∈ (Grammar.ofBindings twins).names, ∃ n : Int, 1 ≤ n ∧ ∃ why,
      ((Sampler.ofGrammar (.ofBindings twins) .leaves (.ofState 0)).count name n).1 =
        .error (.inconsistent why)) ∧
    (∀ s, Sampler.Reachable binary .leaves s → s.NeverInconsistent) ∧
    (∃ v, ((Sampler.ofGrammar binary .nodes (.ofState 0)).count "B" 5).1 = .ok v) := by
  obtain ⟨cycles, check, built⟩ := inconsistent_iff_cyclic
  refine ⟨(cycles _ twins_closed .leaves (.ofState 0)).2 ⟨"B", .single ?_⟩, ?_, ?_⟩
  · exact ⟨.product [.name "B"], by cbv, List.mem_singleton_self _⟩
  · exact (check binaryBindings (by decide)
      (Grammar.ofDefinitions?_normal binary_built).closed).1 (by cbv)
  · exact (built _ _ _ binary_built .nodes _ (.fresh _) "B" (Or.inr (by decide))).1 5

end TreeGrammar
