import TreeGrammar.Proofs.Samplers.Counting
import TreeGrammar.Proofs.Sampling.Consulting

/-!
# What samplers ask of their sources

A call for a tree asks its source for a number at each choice, and for nothing else. What was asked
of the sampler before has no influence on that: counts that are found on the way draw nothing,
whether they are in the table or not.

* `Grammar.Followed`: a derivation of a size with the totals that are asked for on the way.
* `Sampler.Sound.asking`: what a call for a tree asks for.
* `generate_consults`: the same over the grammars that normalisation returns.
-/

namespace TreeGrammar

variable {g : Grammar} {mode : Accounting} {s : Sampler}

/-- A derivation of a size is followed, and the totals that are asked for on the way are those of
its choices: one for every member of a union, and for every product with items one less than it has
items. -/
structure Grammar.Followed (g : Grammar) (mode : Accounting) (name : String) (n : Int)
    (d : Derivation) (totals : List Int) : Prop where
  derives : g.Derives (.name name) d
  size : (d.size mode : Int) = n
  asks : g.Asks mode (.name name) d totals
  positive : ∀ total ∈ totals, 0 < total
  length : totals.length = d.unions + d.gaps

/-- Where there is a count other than zero, a call for a tree asks for the totals along the
derivation that it follows. -/
theorem Sampler.Sound.asking (sound : s.Sound g mode) {name : String} {n : Int} {v : Int}
    (count : (g.plain mode).countRef [] (.name name) n.toNat = .ok v) (hv : v ≠ 0) :
    (s.tracing name n).Asking fun totals out =>
      ∃ d, g.Followed mode name n d totals ∧ out.1 = .ok d.trace := by
  have consults := (growing_consults g mode).grows.1 .start (.name name) n.toNat
    (fun key h => absurd h List.not_mem_nil) v count hv
  rw [tracing, sound.recurrence_eq]
  refine (consults s.table sound.table).positive.mono ?_
  rintro totals ⟨_, table⟩ ⟨positive, _, ⟨d, member, rfl, asks⟩, rfl, -⟩
  have size := (Grammar.derivations_toNat mode (.name name) n).symm ▸ member
  exact ⟨d, ⟨member.1, size.2, asks, positive, asks.length_eq⟩, rfl⟩

/-- Over a grammar that normalisation returns, whatever the sampler was asked before, counts are
numbers of derivations. Where the count is zero a call for a tree asks for nothing. Otherwise it
follows a derivation of the size, however it is answered, and it asks for the totals along it: for a
union the number of its derivations, before its member is grown, and for each item of a product but
the last the number of sequences for this item and those behind it, before this item is grown. All
of them are positive. -/
theorem generate_consults {ds : List Definition} {events : List Event}
    (built : Grammar.ofDefinitions? ds = (events, .ok g)) (reachable : s.Reachable g mode) :
    (∀ name ∈ g.names, ∀ n : Int,
      (s.count name n).1 = .ok ((g.derivations mode (.name name) n.toNat).ncard : Int)) ∧
    ∀ name ∈ g.names, ∀ n : Int,
      ((s.count name n).1 = .ok 0 →
        (∃ table, s.generation name n = .done (.ok .absent, table)) ∧
        (s.generate name n).totals = []) ∧
      ((s.count name n).1 ≠ .ok 0 →
        s.generation name n = (fun out => (out.1.map Trace.sample, out.2)) <$> s.tracing name n ∧
        ((s.tracing name n).Asking fun totals out =>
          ∃ d, g.Followed mode name n d totals ∧ out.1 = .ok d.trace) ∧
        (s.source.Fair → ∃ d, g.Followed mode name n d (s.generate name n).totals ∧
          (s.generate name n).result = .ok d.tree.sample)) := by
  have sound := reachable.sound
  have normal := Grammar.ofDefinitions?_normal built
  refine ⟨fun name bound n => ?_, fun name bound n => ?_⟩
  · obtain ⟨k, count, -, counts⟩ := sound.exists_counts normal (Or.inr bound) n
    rw [count, counts.card]
  obtain ⟨k, answer, count, counts⟩ := sound.exists_counts normal (Or.inr bound) n
  rw [answer]
  refine ⟨fun zero => ?_, fun other => ?_⟩
  · rw [Except.ok.inj zero] at count
    obtain ⟨table, -, done⟩ :=
      sound.generation_of_zero (Grammar.accounts_of_known (Or.inr bound)) count
    refine ⟨⟨table, done⟩, ?_⟩
    rw [Sampler.generate_eq, done]
    rfl
  · have asking := sound.asking count fun zero => other (by rw [zero])
    refine ⟨s.generation_eq name n, asking, fun fair => ?_⟩
    obtain ⟨d, followed, result⟩ := asking.run fair
    refine ⟨d, ?_, ?_⟩
    · rw [Sampler.generate_eq, Sampler.generation_eq, Draw.run_map]
      exact followed
    · rw [Sampler.generate_eq, Sampler.generation_eq, Draw.run_map]
      simp only [result]
      rw [← Derivation.sample_trace]
      rfl

/-- There is no binary tree of size two. For the one of size three, with two leaves, a number is
asked for at each of the three unions and before the first of the two items. -/
theorem generate_consults_binary :
    (∃ table, (Sampler.ofGrammar binary .nodes (.ofState 0)).generation "B" 2 =
      .done (.ok .absent, table)) ∧
    ∃ d, binary.Followed .nodes "B" 3 d
      ((Sampler.ofGrammar binary .nodes (.ofState 0)).generate "B" 3).totals := by
  have fresh : (Sampler.ofGrammar binary .nodes (.ofState 0)).Reachable binary .nodes := .fresh _
  obtain ⟨-, calls⟩ := generate_consults binary_built fresh
  refine ⟨((calls "B" (by decide) 2).1 ?_).1, ?_⟩
  · rw [fresh.sound.count]
    cbv
  · obtain ⟨-, -, run⟩ := (calls "B" (by decide) 3).2 (by
      rw [fresh.sound.count]
      cbv
      simp)
    obtain ⟨d, followed, -⟩ := run trivial
    exact ⟨d, followed⟩

end TreeGrammar
