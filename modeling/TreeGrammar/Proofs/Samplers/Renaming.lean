import Mathlib
import TreeGrammar.Proofs.Counting.Renaming
import TreeGrammar.Proofs.Samplers.Memory

/-!
# Growing under other names

Where bindings are found in others under other names, trees for a name are grown like trees for its
other name: the same is drawn, because the same counts are found on the way, and what is grown has
other names in it. No name is met again at one size, so it does not matter that names with one type
share a count and that the order of forms depends on the spelling.

* `Likewise`: outcomes that are one failure, or related results.
* `Grow.Likewise`: computations that run likewise over the tables of two grammars.
* `Bindings.Embeds.grow`: trees are grown likewise.
* `Bindings.Embeds.count_eq`, `Bindings.Embeds.generate_eq`: what samplers make of it.
-/

namespace TreeGrammar

variable {α β γ δ : Type}

/-- Two outcomes are one failure, or related results. -/
inductive Likewise (R : α → β → Prop) : Except Failure α → Except Failure β → Prop
  | error (e : Failure) : Likewise R (.error e) (.error e)
  | ok {a : α} {b : β} (related : R a b) : Likewise R (.ok a) (.ok b)

/-- Where results are related by a function, one outcome is the image of the other. -/
theorem Likewise.map_eq {f : α → β} {x : Except Failure α} {y : Except Failure β}
    (h : Likewise (fun a b => b = f a) x y) : y = x.map f := by
  cases h with
  | error e => rfl
  | ok related => rw [related]; rfl

/-! ### Drawing likewise -/

namespace Choice

/-- Related values with the same weights. -/
def Paired (R : α → β → Prop) (choices : List (α × Int)) (choices' : List (β × Int)) : Prop :=
  List.Forall₂ (fun c c' => R c.1 c'.1 ∧ c.2 = c'.2) choices choices'

variable {R : α → β → Prop} {choices : List (α × Int)} {choices' : List (β × Int)}

/-- Related choices have one total. -/
theorem Paired.total_eq (h : Paired R choices choices') : total choices = total choices' := by
  induction h with
  | nil => rfl
  | cons first _ ih => rw [total_cons, total_cons, first.2, ih]

/-- From related choices one number picks related values, or none from either. -/
theorem Paired.pick (h : Paired R choices choices') (r : Int) :
    Option.Rel R (Choice.pick choices r) (Choice.pick choices' r) := by
  induction h generalizing r with
  | nil => exact .none
  | cons first _ ih =>
    rw [Choice.pick, Choice.pick, first.2]
    split
    · exact .some first.1
    · exact ih _

/-- Related values with the same weights are drawn likewise. -/
theorem Paired.draw (h : Paired R choices choices') :
    Draw.Rel (Likewise (Option.Rel R)) (Choice.draw choices).run (Choice.draw choices').run := by
  have same := h.total_eq
  by_cases zero : total choices = 0
  · rw [draw_of_total_eq_zero zero, draw_of_total_eq_zero (same ▸ zero)]
    exact .done (.ok .none)
  · rw [draw_of_total_ne_zero zero, draw_of_total_ne_zero (same ▸ zero), same]
    refine .ask fun answer => .done ?_
    rcases answer with e | r
    · exact .error e
    · change TreeGrammar.Likewise _ (result choices r) (result choices' r)
      have picked := h.pick r
      rw [result, result]
      generalize Choice.pick choices r = o at picked
      generalize Choice.pick choices' r = o' at picked
      cases picked with
      | none => exact .error _
      | some related => exact .ok (.some related)

end Choice

/-! ### Computing likewise over the tables of two grammars -/

section

variable (g g' : Grammar) (mode : Accounting)

/-- Two computations draw the same over sound tables of two grammars, and whatever is answered,
they end likewise and leave sound tables. -/
def Grow.Likewise (R : α → β → Prop) (x : Grow α) (y : Grow β) : Prop :=
  ∀ t t', t.Sound g mode → t'.Sound g' mode →
    Draw.Rel (fun out out' => TreeGrammar.Likewise R out.1 out'.1 ∧ out.2.Sound g mode ∧
      out'.2.Sound g' mode) (x.on t) (y.on t')

variable {g g' mode} {R : α → β → Prop}

namespace Grow.Likewise

/-- Related results are reached likewise. -/
theorem pure {a : α} {b : β} (related : R a b) : Likewise g g' mode R (pure a) (pure b) :=
  fun _ _ sound sound' => .done ⟨.ok related, sound, sound'⟩

/-- A failure is one in both grammars. -/
theorem throw (e : Failure) :
    Likewise g g' mode R (throw e : Grow α) (throw e : Grow β) :=
  fun _ _ sound sound' => .done ⟨.error e, sound, sound'⟩

/-- What goes on likewise from related results does so after computations that reach them
likewise. -/
theorem bind {S : γ → δ → Prop} {x : Grow α} {y : Grow β} {f : α → Grow γ} {f' : β → Grow δ}
    (h : Likewise g g' mode R x y) (hf : ∀ a b, R a b → Likewise g g' mode S (f a) (f' b)) :
    Likewise g g' mode S (x >>= f) (y >>= f') := by
  intro t t' sound sound'
  rw [Grow.on_bind, Grow.on_bind]
  refine (h t t' sound sound').bind ?_
  rintro ⟨o, u⟩ ⟨o', u'⟩ ⟨same, soundly, soundly'⟩
  cases same with
  | error e => exact .done ⟨.error e, soundly, soundly'⟩
  | ok related => exact hf _ _ related u u' soundly soundly'

/-- Counts that are related are found likewise, since counting draws nothing. -/
theorem count {x : CountM α} {y : CountM β} {a : α} {b : β} (hx : Answers g mode x (.ok a))
    (hy : Answers g' mode y (.ok b)) (related : R a b) :
    Likewise g g' mode R (Grow.ofCount x) (Grow.ofCount y) := by
  intro t t' sound sound'
  obtain ⟨u, hu, soundly⟩ := hx t sound
  obtain ⟨u', hu', soundly'⟩ := hy t' sound'
  rw [Grow.on_ofCount, Grow.on_ofCount, show x.run.run t = _ from hu,
    show y.run.run t' = _ from hu']
  exact .done ⟨.ok related, soundly, soundly'⟩

/-- Related choices are drawn likewise: one number is asked for, below one total. -/
theorem draw {choices : List (α × Int)} {choices' : List (β × Int)}
    (h : Choice.Paired R choices choices') :
    Likewise g g' mode (Option.Rel R) (Grow.ofDraw (Choice.draw choices))
      (Grow.ofDraw (Choice.draw choices')) := by
  intro t t' sound sound'
  rw [Grow.on_ofDraw, Grow.on_ofDraw, ← bind_pure_comp, ← bind_pure_comp]
  exact h.draw.bind fun _ _ same => .done ⟨same, sound, sound'⟩

end Grow.Likewise

end

/-! ### Growing likewise -/

section

variable (σ : Equiv.Perm String) (b b' : Bindings) (mode : Accounting)

/-- A tree is grown from some bindings, and likewise from others with other names in it. -/
def Grow.Renames (x y : Grow Sample) : Prop :=
  Grow.Likewise (.ofBindings b) (.ofBindings b') mode (fun t t' => t' = t.rename σ) x y

/-- The same of several trees. -/
def Grow.RenamesAll (x y : Grow (List Sample)) : Prop :=
  Grow.Likewise (.ofBindings b) (.ofBindings b') mode
    (fun ts ts' => ts' = Sample.renameAll σ ts) x y

variable {σ b b' mode}

/-- A node of trees that are grown likewise is grown likewise, under its other name. -/
theorem Grow.RenamesAll.node {x y : Grow (List Sample)} (h : Grow.RenamesAll σ b b' mode x y)
    (s : String) :
    Grow.Renames σ b b' mode (do pure (Sample.node s (← x)))
      (do pure (Sample.node (σ s) (← y))) := by
  refine h.bind ?_
  rintro ts _ rfl
  exact .pure (by rw [Sample.rename])

end

/-- A name that is bound is not being grown at the size while it is reached from what is. -/
theorem Grammar.Normal.enters {g : Grammar} {mode : Accounting} (normal : g.Normal) {trail : Trail}
    {s : String} {t : Ty} (above : g.Above mode trail.active s) (found : g.get? s = some t) :
    trail.enter t.canonical = some { trail with active := t.canonical :: trail.active } :=
  Trail.enter_of_notMem fun met => normal.acyclic mode (above.cyclic found met)

namespace Bindings.Embeds

variable {σ : Equiv.Perm String} {b b' : Bindings} {mode : Accounting} (h : b.Embeds σ b')
  (normal : (Grammar.ofBindings b).Normal) (normal' : (Grammar.ofBindings b').Normal)
include h normal normal'

/-- A name is counted, and so is its other name. -/
theorem answers_countRef {s : String} (accounts : (Grammar.ofBindings b).Accounts (.name s))
    (n : Nat) : ∃ v,
      Answers (.ofBindings b) mode (((Grammar.ofBindings b).tabled mode).countRef [] (.name s) n)
        (.ok v) ∧
      Answers (.ofBindings b') mode
        (((Grammar.ofBindings b').tabled mode).countRef [] (.name (σ s)) n) (.ok v) := by
  obtain ⟨v, count⟩ := plain_countRef_ok normal.closed (normal.acyclic mode) accounts n
  refine ⟨v, ?_, ?_⟩
  · rw [← count]
    exact TreeGrammar.answers_countRef _ _ _ _
  · rw [← count, ← h.countRef_eq normal normal' accounts]
    exact TreeGrammar.answers_countRef _ _ _ _

/-- Sequences for items have one count in both grammars. -/
theorem answers_countSequences {texts : List String}
    (known : ∀ x ∈ texts, (Grammar.ofBindings b).Accounts (.name x)) (n : Nat) : ∃ v,
      Answers (.ofBindings b) mode
        (((Grammar.ofBindings b).tabled mode).countSequences [] (texts.map .name) n) (.ok v) ∧
      Answers (.ofBindings b') mode
        (((Grammar.ofBindings b').tabled mode).countSequences [] ((texts.map σ).map .name) n)
        (.ok v) := by
  obtain ⟨v, count⟩ := plain_countSequences_ok normal.closed (normal.acyclic mode)
    (List.forall_mem_map.2 known) n
  refine ⟨v, ?_, ?_⟩
  · rw [← count]
    exact TreeGrammar.answers_countSequences _ _ _ _
  · rw [← count, ← h.countSequences_eq normal normal' known]
    exact TreeGrammar.answers_countSequences _ _ _ _

/-- Members of a union and their other names have the same weights. -/
theorem answers_memberWeights {texts : List String}
    (known : ∀ x ∈ texts, (Grammar.ofBindings b).Accounts (.name x)) (n : Nat) : ∃ ws ws',
      Answers (.ofBindings b) mode
        (((Grammar.ofBindings b).tabled mode).memberWeights n (texts.map .name)) (.ok ws) ∧
      Answers (.ofBindings b') mode
        (((Grammar.ofBindings b').tabled mode).memberWeights n ((texts.map σ).map .name))
        (.ok ws') ∧
      Choice.Paired (fun r r' => ∃ x ∈ texts, r = .name x ∧ r' = .name (σ x)) ws ws' := by
  induction texts with
  | nil =>
    refine ⟨[], [], ?_, ?_, .nil⟩
    · exact Answers.pure []
    · exact Answers.pure []
  | cons x rest ih =>
    obtain ⟨first, others⟩ := List.forall_mem_cons.1 known
    obtain ⟨v, count, count'⟩ := h.answers_countRef normal normal' first n
    obtain ⟨ws, ws', answers, answers', same⟩ := ih others
    refine ⟨(.name x, v) :: ws, (.name (σ x), v) :: ws', ?_, ?_, .cons ?_ (same.imp ?_)⟩
    · rw [List.map_cons, Recurrence.memberWeights]
      exact count.bind (answers.bind (Answers.pure _))
    · rw [List.map_cons, List.map_cons, Recurrence.memberWeights]
      exact count'.bind (answers'.bind (Answers.pure _))
    · exact ⟨⟨x, List.mem_cons_self, rfl, rfl⟩, rfl⟩
    · rintro c c' ⟨⟨y, hy, e⟩, weight⟩
      exact ⟨⟨y, List.mem_cons_of_mem _ hy, e⟩, weight⟩

/-- Sizes of a first item and of its other name have the same weights. -/
theorem answers_splitWeights {head second : String} {rest : List String}
    (known : ∀ x ∈ head :: second :: rest, (Grammar.ofBindings b).Accounts (.name x))
    (n i : Nat) : ∃ ws ws',
      Answers (.ofBindings b) mode
        (((Grammar.ofBindings b).tabled mode).splitWeights (.name head) (.name second)
          (rest.map .name) n i) (.ok ws) ∧
      Answers (.ofBindings b') mode
        (((Grammar.ofBindings b').tabled mode).splitWeights (.name (σ head)) (.name (σ second))
          ((rest.map σ).map .name) n i) (.ok ws') ∧
      Choice.Paired (fun j j' => j.1 = j'.1) ws ws' := by
  obtain ⟨first, others⟩ := List.forall_mem_cons.1 known
  by_cases fits : i + 1 + (rest.length + 1) ≤ n
  · obtain ⟨v, count, count'⟩ := h.answers_countRef normal normal' first (i + 1)
    obtain ⟨w, counts, counts'⟩ :=
      h.answers_countSequences normal normal' others (n - (i + 1))
    obtain ⟨ws, ws', answers, answers', same⟩ := answers_splitWeights known n (i + 1)
    have here : i + 1 + ((rest.map Ref.name).length + 1) ≤ n := by simpa using fits
    have here' : i + 1 + (((rest.map σ).map Ref.name).length + 1) ≤ n := by simpa using fits
    refine ⟨(⟨i, here⟩, v * w) :: ws, (⟨i, here'⟩, v * w) :: ws', ?_, ?_, .cons ⟨rfl, rfl⟩ same⟩
    · rw [Recurrence.splitWeights, dif_pos here]
      exact count.bind (counts.bind (answers.bind (Answers.pure _)))
    · rw [Recurrence.splitWeights, dif_pos here']
      exact count'.bind (counts'.bind (answers'.bind (Answers.pure _)))
  · refine ⟨[], [], ?_, ?_, .nil⟩
    · rw [Recurrence.splitWeights, dif_neg (by simpa using fits)]
      exact Answers.pure []
    · rw [Recurrence.splitWeights, dif_neg (by simpa using fits)]
      exact Answers.pure []
termination_by n - i

omit h normal normal' in
/-- A tree for a name that is bound is grown likewise, if the trees of its items are. -/
theorem growBound {s : String} {body : Body} {trail trail' : Trail} {n : Nat} {v : Int}
    {sequence sequence' : Trail → List Ref → Nat → Grow (List Sample)}
    {member member' : Trail → List Ref → Grow Sample} {rule rule' : Rule}
    (type : rule.type = body.toTy) (type' : rule'.type = (body.rename σ).toTy)
    (count : Answers (.ofBindings b) mode
      (((Grammar.ofBindings b).tabled mode).countRule rule n) (.ok v))
    (count' : Answers (.ofBindings b') mode
      (((Grammar.ofBindings b').tabled mode).countRule rule' n) (.ok v))
    (enters : ∃ u, trail.enter rule.key = some u) (enters' : ∃ u, trail'.enter rule'.key = some u)
    (smaller : ∀ texts, body = .product texts → n ≠ 0 → Grow.RenamesAll σ b b' mode
      (sequence trail.afresh (texts.map .name) (n - 1))
      (sequence' trail'.afresh ((texts.map σ).map .name) (n - 1)))
    (same : ∀ texts, body = .product texts → mode = .leaves → ∀ u u',
      trail.enter rule.key = some u → trail'.enter rule'.key = some u' → Grow.RenamesAll σ b b' mode
        (sequence u (texts.map .name) n) (sequence' u' ((texts.map σ).map .name) n))
    (members : ∀ texts, body = .union texts → ∀ u u', trail.enter rule.key = some u →
      trail'.enter rule'.key = some u' → Grow.Renames σ b b' mode
        (member u (texts.map .name)) (member' u' ((texts.map σ).map .name))) :
    Grow.Renames σ b b' mode
      (((Grammar.ofBindings b).tabled mode).growBound .absent .leaf (.node s) sequence member trail
        rule n)
      (((Grammar.ofBindings b').tabled mode).growBound .absent .leaf (.node (σ s)) sequence' member'
        trail' rule' n) := by
  obtain ⟨u, entered⟩ := enters
  obtain ⟨u', entered'⟩ := enters'
  rw [Recurrence.growBound, Recurrence.growBound]
  refine (Grow.Likewise.count count count' (rfl : v = v)).bind ?_
  rintro count _ rfl
  by_cases zero : count = 0
  · rw [if_pos zero, if_pos zero]
    exact .pure (by rw [Sample.rename])
  rw [if_neg zero, if_neg zero, type, type']
  cases body with
  | value tag => exact .pure (by rw [Sample.rename])
  | product texts =>
    rcases texts with _ | ⟨first, rest⟩
    · exact .pure (by rw [Sample.rename, Sample.renameAll])
    · cases mode with
      | nodes =>
        by_cases hn : n = 0
        · simp only [Body.toTy, Body.rename, List.map_cons, Grammar.tabled, Recurrence.tabled,
            if_pos hn]
          exact .pure (by rw [Sample.rename])
        · simp only [Body.toTy, Body.rename, List.map_cons, Grammar.tabled, Recurrence.tabled,
            if_neg hn]
          exact (smaller _ rfl hn).node s
      | leaves =>
        simp only [Body.toTy, Body.rename, List.map_cons, Grammar.tabled, Recurrence.tabled,
          entered, entered']
        exact (same _ rfl rfl u u' entered entered').node s
  | union texts =>
    simp only [Body.toTy, Body.rename, entered, entered']
    exact members texts rfl u u' entered entered'

/-- Trees are grown likewise. The induction is over the growing, and carries along that what is
being grown is reached, through aliases, from every type being grown at the size. -/
theorem grow :
    (∀ trail r n, ∀ s trail', r = .name s → (Grammar.ofBindings b).Accounts (.name s) →
      (Grammar.ofBindings b).Above mode trail.active s →
      (Grammar.ofBindings b').Above mode trail'.active (σ s) →
      Grow.Renames σ b b' mode (((Grammar.ofBindings b).tabled mode).growRef trail r n)
        (((Grammar.ofBindings b').tabled mode).growRef trail' (.name (σ s)) n)) ∧
    (∀ trail items n, ∀ texts trail', items = texts.map .name →
      (∀ x ∈ texts, (Grammar.ofBindings b).Accounts (.name x)) →
      (∀ x, texts = [x] → (Grammar.ofBindings b).Above mode trail.active x ∧
        (Grammar.ofBindings b').Above mode trail'.active (σ x)) →
      Grow.RenamesAll σ b b' mode (((Grammar.ofBindings b).tabled mode).growSequence trail items n)
        (((Grammar.ofBindings b').tabled mode).growSequence trail'
          ((texts.map σ).map .name) n)) := by
  apply Recurrence.growing_induction ((Grammar.ofBindings b).tabled mode)
  case nameless =>
    intro trail r n nameless s trail' same
    exact absurd same (nameless s)
  case tag =>
    intro trail s n tag s' trail' same _ _ _
    cases same
    rw [h.tags s tag, Recurrence.growRef_tag _ tag, Recurrence.growRef_tag _ tag]
    refine .pure ?_
    split
    · rw [Sample.rename]
    · rw [Sample.rename]
  case unbound =>
    intro trail s n tag found s' trail' same accounts _ _
    cases same
    obtain ⟨_, same, tag' | ⟨t, bound⟩⟩ := accounts
    · cases same
      exact absurd tag' tag
    · cases same
      have found' : ((Grammar.ofBindings b).tabled mode).rules.lookup s = some (.ofTy t) :=
        Grammar.lookup_rules_of_bound bound
      rw [found'] at found
      cases found
  case bound =>
    intro trail s n rule tag found smaller same members s' trail' e accounts above above'
    cases e
    have bound := Grammar.get?_of_lookup_rules _ found
    have items := normal.closed.items s _ bound
    have tag' : ¬isTag (σ s) = true := fun tag' => tag (h.isTag_apply.1 tag')
    obtain ⟨t, _, rfl⟩ := rule
    obtain ⟨body, rfl, bound'⟩ := h.get? bound
    have known : ∀ texts, body.items = texts →
        ∀ x ∈ texts, (Grammar.ofBindings b).Accounts (.name x) := by
      rintro texts rfl x hx
      exact items _ (body.items_toTy ▸ List.mem_map_of_mem hx)
    obtain ⟨v, count⟩ := plain_countRef_ok normal.closed (normal.acyclic mode) accounts n
    have answers := Sampler.Sound.counted mode tag bound n
    have answers' := Sampler.Sound.counted mode tag' bound' n
    rw [h.countRef_eq normal normal' accounts, count] at answers'
    rw [count] at answers
    rw [Recurrence.growRef_bound _ tag found,
      Recurrence.growRef_bound _ tag' (Grammar.lookup_rules_of_bound bound')]
    refine growBound rfl rfl answers answers' ⟨_, normal.enters above bound⟩
      ⟨_, normal'.enters above' bound'⟩ ?_ ?_ ?_
    · rintro texts rfl hn
      exact smaller _ hn texts trail'.afresh rfl (known texts rfl) fun x _ => ⟨.nil x, .nil _⟩
    · rintro texts rfl rfl u u' entered entered'
      refine same u _ entered texts u' rfl (known texts rfl) ?_
      rintro x rfl
      obtain rfl := Option.some.inj ((normal.enters above bound).symm.trans entered)
      obtain rfl := Option.some.inj ((normal'.enters above' bound').symm.trans entered')
      exact ⟨above.step bound (List.mem_singleton_self _),
        above'.step bound' (List.mem_singleton_self _)⟩
    · rintro texts rfl u u' entered entered'
      obtain rfl := Option.some.inj ((normal.enters above bound).symm.trans entered)
      obtain rfl := Option.some.inj ((normal'.enters above' bound').symm.trans entered')
      obtain ⟨ws, ws', weights, weights', same⟩ :=
        h.answers_memberWeights normal normal' (known texts rfl) n
      refine (Grow.Likewise.count weights weights' same).bind fun ws ws' same => ?_
      refine (Grow.Likewise.draw same).bind fun drawn drawn' same => ?_
      cases same with
      | none => exact .throw _
      | some same =>
        obtain ⟨x, hx, rfl, rfl⟩ := same
        exact members _ _ entered x _ rfl (known texts rfl x hx)
          (above.step bound (List.mem_map_of_mem hx))
          (above'.step bound' (List.mem_map_of_mem (List.mem_map_of_mem hx)))
  case empty =>
    intro trail n texts trail' e _ _
    obtain rfl := List.map_eq_nil_iff.1 e.symm
    rw [Recurrence.growSequence, List.map_nil, List.map_nil, Recurrence.growSequence]
    exact .pure (by rw [Sample.renameAll])
  case single =>
    intro trail r n ih texts trail' e known above
    obtain ⟨x, rfl, rfl⟩ := List.map_eq_singleton_iff.1 e.symm
    obtain ⟨above, above'⟩ := above x rfl
    rw [Recurrence.growSequence, List.map_cons, List.map_nil, List.map_cons, List.map_nil,
      Recurrence.growSequence]
    refine (ih x trail' rfl (known x (List.mem_singleton_self x)) above above').bind ?_
    rintro t _ rfl
    exact .pure (by rw [Sample.renameAll, Sample.renameAll])
  case several =>
    intro trail head second rest n ih₁ ih₂ texts trail' e known _
    obtain ⟨x, later, rfl, rfl, later_eq⟩ := List.map_eq_cons_iff.1 e.symm
    obtain ⟨y, others, rfl, rfl, rfl⟩ := List.map_eq_cons_iff.1 later_eq
    obtain ⟨first, later⟩ := List.forall_mem_cons.1 known
    obtain ⟨ws, ws', answers, answers', same⟩ :=
      h.answers_splitWeights normal normal' known n 0
    simp only [List.map_cons]
    rw [Recurrence.growSequence, Recurrence.growSequence]
    refine (Grow.Likewise.count answers answers' same).bind fun ws ws' same => ?_
    refine (Grow.Likewise.draw same).bind fun drawn drawn' same => ?_
    cases same with
    | none => exact .throw _
    | @some split split' same =>
      dsimp only
      rw [← same]
      refine (ih₁ _ split.2 x trail'.afresh rfl first (.nil x) (.nil _)).bind ?_
      rintro t _ rfl
      refine (ih₂ _ split.2 (y :: others) trail'.afresh rfl later fun z _ =>
        ⟨.nil z, .nil _⟩).bind ?_
      rintro ts _ rfl
      exact .pure (by rw [Sample.renameAll])

variable {s s' : Sampler} {name : String}

/-- A name and its other name have the same counts, whatever the samplers were asked before. -/
theorem count_eq (sound : s.Sound (.ofBindings b) mode) (sound' : s'.Sound (.ofBindings b') mode)
    (accounts : (Grammar.ofBindings b).Accounts (.name name)) (n : Int) :
    (s'.count (σ name) n).1 = (s.count name n).1 := by
  rw [sound.count, sound'.count, h.countRef_eq normal normal' accounts]

/-- Run on one source, calls for trees of a name and of its other name ask for the same totals, and
what comes of them has other names. -/
theorem generate_eq (sound : s.Sound (.ofBindings b) mode)
    (sound' : s'.Sound (.ofBindings b') mode) (source : s'.source = s.source)
    (accounts : (Grammar.ofBindings b).Accounts (.name name)) (n : Int) :
    (s'.generate (σ name) n).totals = (s.generate name n).totals ∧
      (s'.generate (σ name) n).result = (s.generate name n).result.map (Sample.rename σ) := by
  have draws : (fun out => out.1.map (Sample.rename σ)) <$> s.generation name n =
      Prod.fst <$> s'.generation (σ name) n := by
    have likewise := (h.grow normal normal').1 .start (.name name) n.toNat name .start rfl accounts
      (.nil _) (.nil _) s.table s'.table sound.table sound'.table
    rw [Sampler.generation, Sampler.generation, sound.recurrence_eq, sound'.recurrence_eq]
    exact (likewise.mono fun _ _ same => same.1.map_eq.symm).map_eq
  have runs := congrArg (·.run s.source) draws
  simp only [Draw.run_map, Prod.mk.injEq] at runs
  rw [Sampler.generate_eq, Sampler.generate_eq, source]
  exact ⟨congrArg Prod.snd runs.2.symm, runs.1.symm⟩

end Bindings.Embeds

end TreeGrammar
