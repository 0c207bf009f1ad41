import Mathlib.Data.List.Perm.Basic
import TreeGrammar.Proofs.Canonical.Delimited

/-!
# The recurrence without a table

The recurrence of `Recurrence` is written over any way to run computations. Run without a table it
gives a count or a failure and nothing else, and that is what tables, samplers and the numbers of
derivations are measured against.

* `Grammar.plain`: the recurrence of a grammar, each count found anew.
* `countRef_*`, `countBody_*`, `countSequences_*`, `countSplits_*`, `countMembers_*`: one equation
  for each way a count is found, whatever runs the recurrence.
* `Recurrence.induction`: induction over the recurrence.
* `Recurrence.countRef_congr`, `Recurrence.countSequences_congr`: a count depends on references
  through their canonical forms only.
* `plain_countBody_congr`: where a type has a count, every type with its canonical form has the same
  one. Of failures this is not true: the members of a union are counted in their order, and the
  first failure among them decides.
-/

namespace TreeGrammar

/-- A computation that goes on after another succeeds exactly if both do. -/
theorem Except.bind_ok_iff {ε α β : Type} {x : Except ε α} {f : α → Except ε β} {b : β} :
    (x >>= f) = .ok b ↔ ∃ a, x = .ok a ∧ f a = .ok b := by
  rcases x with e | a
  · simp [bind, Except.bind]
  · simp [bind, Except.bind]

/-- A computation that goes on after another fails if one of them does. -/
theorem Except.bind_error_iff {ε α β : Type} {x : Except ε α} {f : α → Except ε β} {e : ε} :
    (x >>= f) = .error e ↔ x = .error e ∨ ∃ a, x = .ok a ∧ f a = .error e := by
  rcases x with e' | a
  · simp [bind, Except.bind]
  · simp [bind, Except.bind]

/-- A rule is looked up as the type it stands for. -/
theorem Grammar.lookup_rules (g : Grammar) (name : String) :
    g.rules.lookup name = (g.get? name).map Rule.ofTy := by
  rcases g with ⟨types⟩
  induction types with
  | nil => rfl
  | cons p rest ih =>
    obtain ⟨n, t⟩ := p
    by_cases h : name = n
    · subst h
      simp [Grammar.rules, Grammar.get?]
    · have hb : (name == n) = false := by simpa using h
      simpa [Grammar.rules, Grammar.get?, List.lookup_cons, hb] using ih

/-- A name that is bound has the rule of its type. -/
theorem Grammar.lookup_rules_of_bound {g : Grammar} {s : String} {t : Ty}
    (bound : g.get? s = some t) :
    g.rules.lookup s = some (.ofTy t) := by
  rw [g.lookup_rules, bound]
  rfl

/-- A name that is not bound has no rule. -/
theorem Grammar.lookup_rules_of_unbound {g : Grammar} {s : String} (unbound : g.get? s = none) :
    g.rules.lookup s = none := by
  rw [g.lookup_rules, unbound]
  rfl

/-- A rule that is looked up is the rule of the type that the name is bound to. -/
theorem Grammar.get?_of_lookup_rules (g : Grammar) {s : String} {rule : Rule}
    (found : g.rules.lookup s = some rule) : g.get? s = some rule.type := by
  rw [g.lookup_rules, Option.map_eq_some_iff] at found
  obtain ⟨t, ht, rfl⟩ := found
  exact ht

/-- The types with one tree of one unit are the values and the empty product. -/
theorem Ty.isLeaf_iff {t : Ty} : t.isLeaf = true ↔ (∃ tag, t = .value tag) ∨ t = .product [] := by
  rcases t with tag | items | items
  · simp [Ty.isLeaf]
  · cases items <;> simp [Ty.isLeaf]
  · simp [Ty.isLeaf]

namespace Recurrence

/-! ### One equation for each way a count is found -/

section equations

variable {m : Type → Type} [Monad m] [MonadExceptOf Failure m] (c : Recurrence m)
variable {active : List String} {n : Nat}

/-- Equation lemma: there is nothing of size zero, and nothing is looked up for it. -/
@[simp] theorem countRef_zero (r : Ref) : c.countRef active r 0 = pure 0 := by
  rw [countRef.eq_def, if_pos rfl]

/-- Whatever is no name is bound nowhere. -/
theorem countRef_nameless {r : Ref} (nameless : ∀ s, r ≠ .name s) (hn : n ≠ 0) :
    c.countRef active r n = throw (Failure.undefinedName r.canonical none) := by
  rcases r with s | t | b
  · exact absurd rfl (nameless s)
  · rw [countRef, if_neg hn, Ref.canonical]
  · rw [countRef, if_neg hn, Ref.canonical]

/-- Equation lemma: a tag is a leaf, whatever is bound. -/
theorem countRef_tag {s : String} (tag : isTag s = true) (hn : n ≠ 0) :
    c.countRef active (.name s) n = pure (one n) := by
  rw [countRef, if_neg hn]
  simp only [tag, if_true]

/-- Equation lemma: a name without a rule fails. -/
theorem countRef_unbound {s : String} (tag : ¬isTag s = true) (found : c.rules.lookup s = none)
    (hn : n ≠ 0) : c.countRef active (.name s) n = throw (.undefinedName s none) := by
  rw [countRef, if_neg hn]
  simp only [if_neg tag]
  split
  · rfl
  · next rule found' => rw [found] at found'; cases found'

/-- What a name that is bound counts as. -/
theorem countRef_bound {s : String} {rule : Rule} (tag : ¬isTag s = true)
    (found : c.rules.lookup s = some rule) (hn : n ≠ 0) :
    c.countRef active (.name s) n =
      if rule.type.isLeaf then pure (one n)
      else if rule.key ∈ active then throw (.inconsistent (.cycle rule.key n))
      else c.remember rule.key n fun _ => c.countBody (rule.key :: active) rule.type n := by
  rw [countRef, if_neg hn]
  simp only [if_neg tag]
  split
  · next found' => rw [found] at found'; cases found'
  · next rule' found' =>
    obtain rfl := Option.some.inj (found.symm.trans found')
    simp only [dite_eq_ite]

/-- Equation lemma: a name of a leaf is counted as one. -/
theorem countRef_leaf {s : String} {rule : Rule} (tag : ¬isTag s = true)
    (found : c.rules.lookup s = some rule) (leaf : rule.type.isLeaf = true) (hn : n ≠ 0) :
    c.countRef active (.name s) n = pure (one n) := by
  rw [countRef_bound c tag found hn, if_pos leaf]

/-- A type that is being counted at the same size is a failure. -/
theorem countRef_active {s : String} {rule : Rule} (tag : ¬isTag s = true)
    (found : c.rules.lookup s = some rule) (leaf : ¬rule.type.isLeaf = true)
    (met : rule.key ∈ active) (hn : n ≠ 0) :
    c.countRef active (.name s) n = throw (.inconsistent (.cycle rule.key n)) := by
  rw [countRef_bound c tag found hn, if_neg leaf, if_pos met]

/-- Equation lemma: the count of a name is that of its type, which is being counted from then on. -/
theorem countRef_new {s : String} {rule : Rule} (tag : ¬isTag s = true)
    (found : c.rules.lookup s = some rule) (leaf : ¬rule.type.isLeaf = true)
    (new : rule.key ∉ active) (hn : n ≠ 0) :
    c.countRef active (.name s) n =
      c.remember rule.key n fun _ => c.countBody (rule.key :: active) rule.type n := by
  rw [countRef_bound c tag found hn, if_neg leaf, if_neg new]

/-- Equation lemma: a value is counted as a leaf. -/
theorem countBody_value (tag : String) : c.countBody active (.value tag) n = pure (one n) := by
  rw [countBody]

/-- Equation lemma: a union is counted as its members together. -/
theorem countBody_union (items : List Ref) :
    c.countBody active (.union items) n = c.countMembers active items n := by
  rw [countBody]

/-- Equation lemma: where inner nodes do not count a product has the size of its items. -/
theorem countBody_product_leaves (items : List Ref) (mode : c.mode = .leaves) :
    c.countBody active (.product items) n = c.countSequences active items n := by
  rw [countBody]
  split
  · rfl
  · next h => rw [mode] at h; cases h

/-- Equation lemma: where inner nodes count there is no product of size zero. -/
theorem countBody_product_nodes_zero (items : List Ref) (mode : c.mode = .nodes) :
    c.countBody active (.product items) 0 = pure 0 := by
  rw [countBody]
  split
  · next h => rw [mode] at h; cases h
  · rw [if_pos rfl]

/-- Equation lemma: where inner nodes count one unit is the node's, and what is being counted is
forgotten, for the size is smaller. -/
theorem countBody_product_nodes (items : List Ref) (mode : c.mode = .nodes) (hn : n ≠ 0) :
    c.countBody active (.product items) n = c.countSequences [] items (n - 1) := by
  rw [countBody]
  split
  · next h => rw [mode] at h; cases h
  · rw [if_neg hn]

/-- Equation lemma: there is nothing of no members. -/
@[simp] theorem countMembers_nil : c.countMembers active [] n = pure 0 := by
  rw [countMembers]

/-- Equation lemma: the counts of the first member and of the rest are added. -/
theorem countMembers_cons (r : Ref) (rest : List Ref) :
    c.countMembers active (r :: rest) n = (do
      let a ← c.countRef active r n
      let b ← c.countMembers active rest n
      pure (a + b)) := by
  rw [countMembers]

/-- Equation lemma: no items have no sequence that is counted. The empty product is a leaf. -/
@[simp] theorem countSequences_nil : c.countSequences active [] n = pure 0 := by
  rw [countSequences]

/-- Equation lemma: a sequence of one is a tree. -/
@[simp] theorem countSequences_single (r : Ref) :
    c.countSequences active [r] n = c.countRef active r n := by
  rw [countSequences]

/-- Equation lemma: items that do not fit have no sequence. -/
theorem countSequences_short (head second : Ref) (rest : List Ref) (short : n < rest.length + 2) :
    c.countSequences active (head :: second :: rest) n = pure 0 := by
  rw [countSequences, if_pos short]

/-- Equation lemma: the count for items that fit is the sum over all splits, and is remembered. -/
theorem countSequences_long (head second : Ref) (rest : List Ref) (long : ¬n < rest.length + 2) :
    c.countSequences active (head :: second :: rest) n =
      c.remember (sequenceKey (head :: second :: rest)) n
        fun _ => c.countSplits head second rest n 0 := by
  rw [countSequences, if_neg long]

/-- Equation lemma: the splits with the next size of the first tree, and then those with greater
ones. -/
theorem countSplits_fits (head second : Ref) (rest : List Ref) {i : Nat}
    (fits : i + 1 + (rest.length + 1) ≤ n) :
    c.countSplits head second rest n i = (do
      let a ← c.countRef [] head (i + 1)
      let b ← c.countSequences [] (second :: rest) (n - (i + 1))
      let others ← c.countSplits head second rest n (i + 1)
      pure (a * b + others)) := by
  rw [countSplits, dif_pos fits]

/-- Equation lemma: there are no splits where the others do not fit behind the first. -/
theorem countSplits_stop (head second : Ref) (rest : List Ref) {i : Nat}
    (stop : ¬i + 1 + (rest.length + 1) ≤ n) : c.countSplits head second rest n i = pure 0 := by
  rw [countSplits, dif_neg stop]

/-- Equation lemma: there is nothing of size zero. -/
theorem countRule_zero (rule : Rule) : c.countRule rule 0 = pure 0 := by
  rw [countRule, if_pos rfl]

/-- Equation lemma: the rule of a leaf is counted as one. -/
theorem countRule_leaf {rule : Rule} (leaf : rule.type.isLeaf = true) (hn : n ≠ 0) :
    c.countRule rule n = pure (one n) := by
  rw [countRule, if_neg hn, if_pos leaf]

/-- Equation lemma: the count of a rule is that of its type, and is remembered. -/
theorem countRule_body {rule : Rule} (leaf : ¬rule.type.isLeaf = true) (hn : n ≠ 0) :
    c.countRule rule n = c.remember rule.key n fun _ => c.countBody [rule.key] rule.type n := by
  rw [countRule, if_neg hn, if_neg leaf]

omit [Monad m] [MonadExceptOf Failure m] in
/-- Induction over the recurrence, with one case for each way a count is found. Here `ref`, `body`,
`sequences`, `splits` and `members` are what is to be proved of references, of types, of the
sequences for several items, of their splits, and of the members of a union. -/
theorem induction {ref : List String → Ref → Nat → Prop} {body : List String → Ty → Nat → Prop}
    {sequences : List String → List Ref → Nat → Prop}
    {splits : Ref → Ref → List Ref → Nat → Nat → Prop}
    {members : List String → List Ref → Nat → Prop}
    (zero : ∀ active r, ref active r 0)
    (nameless : ∀ active r n, n ≠ 0 → (∀ s, r ≠ Ref.name s) → ref active r n)
    (tag : ∀ active s n, n ≠ 0 → isTag s = true → ref active (.name s) n)
    (unbound : ∀ active s n, n ≠ 0 → ¬isTag s = true → c.rules.lookup s = none →
      ref active (.name s) n)
    (leaf : ∀ active s n rule, n ≠ 0 → ¬isTag s = true → c.rules.lookup s = some rule →
      rule.type.isLeaf = true → ref active (.name s) n)
    (met : ∀ active s n rule, n ≠ 0 → ¬isTag s = true → c.rules.lookup s = some rule →
      ¬rule.type.isLeaf = true → rule.key ∈ active → ref active (.name s) n)
    (new : ∀ active s n rule, n ≠ 0 → ¬isTag s = true → c.rules.lookup s = some rule →
      ¬rule.type.isLeaf = true → rule.key ∉ active → body (rule.key :: active) rule.type n →
      ref active (.name s) n)
    (value : ∀ active t n, body active (.value t) n)
    (union : ∀ active items n, members active items n → body active (.union items) n)
    (free : ∀ active items n, c.mode = .leaves → sequences active items n →
      body active (.product items) n)
    (costly_zero : ∀ active items, c.mode = .nodes → body active (.product items) 0)
    (costly : ∀ active items n, c.mode = .nodes → n ≠ 0 → sequences [] items (n - 1) →
      body active (.product items) n)
    (empty : ∀ active n, sequences active [] n)
    (single : ∀ active r n, ref active r n → sequences active [r] n)
    (short : ∀ active head second rest n, n < rest.length + 2 →
      sequences active (head :: second :: rest) n)
    (long : ∀ active head second rest n, ¬n < rest.length + 2 → splits head second rest n 0 →
      sequences active (head :: second :: rest) n)
    (fits : ∀ head second rest n i, i + 1 + (rest.length + 1) ≤ n → ref [] head (i + 1) →
      sequences [] (second :: rest) (n - (i + 1)) → splits head second rest n (i + 1) →
      splits head second rest n i)
    (stop : ∀ head second rest n i, ¬i + 1 + (rest.length + 1) ≤ n → splits head second rest n i)
    (none : ∀ active n, members active [] n)
    (some : ∀ active r rest n, ref active r n → members active rest n →
      members active (r :: rest) n) :
    (∀ active r n, ref active r n) ∧ (∀ active t n, body active t n) ∧
    (∀ active items n, sequences active items n) ∧
    (∀ head second rest n i, splits head second rest n i) ∧
    (∀ active items n, members active items n) := by
  refine countRef.mutual_induct c ref body sequences splits members zero
    (fun active n hn t => nameless active _ n hn nofun)
    (fun active n hn b => nameless active _ n hn nofun)
    (fun active n hn s ht => tag active s n hn ht)
    (fun active n hn s ht found => unbound active s n hn ht found)
    (fun active n hn s ht rule found hl => leaf active s n rule hn ht found hl)
    (fun active n hn s ht rule found hl hm => met active s n rule hn ht found hl hm)
    (fun active n hn s ht rule found hl hm ih => new active s n rule hn ht found hl hm ih)
    (fun active n t => value active t n)
    (fun active n items ih => union active items n ih)
    (fun active n items mode ih => free active items n mode ih)
    costly_zero
    (fun active n items mode hn ih => costly active items n mode hn ih)
    empty
    (fun active n r ih => single active r n ih)
    (fun active n head second rest h => short active head second rest n h)
    (fun active n head second rest h ih => long active head second rest n h ih)
    fits stop none
    (fun active n r rest ih₁ ih₂ => some active r rest n ih₁ ih₂)

/-! ### Counts depend on canonical forms -/

/-- References with one canonical form have the same trees: two names of one form are the same name,
and whatever is no name fails with its form. -/
theorem countRef_congr {r r' : Ref} (h : r.canonical = r'.canonical) :
    c.countRef active r n = c.countRef active r' n := by
  rcases Nat.eq_zero_or_pos n with rfl | pos
  · rw [countRef_zero, countRef_zero]
  · by_cases named : ∃ s, r = .name s
    · obtain ⟨s, rfl⟩ := named
      rw [Ref.eq_name_of_canonical h.symm]
    · by_cases named' : ∃ s, r' = .name s
      · obtain ⟨s, rfl⟩ := named'
        rw [Ref.eq_name_of_canonical h]
      · rw [countRef_nameless c (fun s e => named ⟨s, e⟩) (Nat.ne_of_gt pos),
          countRef_nameless c (fun s e => named' ⟨s, e⟩) (Nat.ne_of_gt pos), h]

/-- Splits have one count for items of one canonical form, if the others have. -/
theorem countSplits_congr {head head' second second' : Ref} {rest rest' : List Ref}
    (first : head.canonical = head'.canonical) (length : rest.length = rest'.length)
    (others : ∀ k, c.countSequences [] (second :: rest) k =
      c.countSequences [] (second' :: rest') k) (i : Nat) :
    c.countSplits head second rest n i = c.countSplits head' second' rest' n i := by
  -- the sizes that are left for the first tree become fewer
  induction left : n - i generalizing i with
  | zero => rw [countSplits_stop c _ _ _ (by omega), countSplits_stop c _ _ _ (by omega)]
  | succ left ih =>
    by_cases fits : i + 1 + (rest.length + 1) ≤ n
    · rw [countSplits_fits c head second rest fits,
        countSplits_fits c head' second' rest' (length ▸ fits), others, countRef_congr c first,
        ih (i + 1) (by omega)]
    · rw [countSplits_stop c _ _ _ fits, countSplits_stop c _ _ _ (by omega)]

/-- Items with the same canonical forms have the same sequences of trees. -/
theorem countSequences_congr {items items' : List Ref}
    (h : items.map Ref.canonical = items'.map Ref.canonical) :
    c.countSequences active items n = c.countSequences active items' n := by
  induction items generalizing items' active n with
  | nil =>
    cases items' with
    | nil => rfl
    | cons r' rest' => cases h
  | cons r rest ih =>
    cases items' with
    | nil => cases h
    | cons r' rest' =>
      obtain ⟨first, tail⟩ := List.cons.inj h
      have length : rest.length = rest'.length := by simpa using congrArg List.length tail
      cases rest with
      | nil =>
        cases rest' with
        | nil => rw [countSequences_single, countSequences_single, countRef_congr c first]
        | cons => cases tail
      | cons second rest =>
        cases rest' with
        | nil => cases tail
        | cons second' rest' =>
          have length' : rest.length = rest'.length := by simpa using length
          by_cases short : n < rest.length + 2
          · rw [countSequences_short c _ _ _ short, countSequences_short c _ _ _ (by omega)]
          · rw [countSequences_long c _ _ _ short, countSequences_long c _ _ _ (by omega)]
            have key : sequenceKey (r :: second :: rest) = sequenceKey (r' :: second' :: rest') :=
              by rw [sequenceKey, sequenceKey, h]
            rw [key, countSplits_congr c first length' fun k => ih tail]

end equations

end Recurrence

/-- The recurrence of a grammar, each count found anew. -/
def Grammar.plain (g : Grammar) (mode : Accounting) : Recurrence (Except Failure) :=
  ⟨g.rules, mode, fun _ _ find => find ()⟩

section plain

variable (g : Grammar) (mode : Accounting) {active : List String} {n : Nat}

/-! ### The recurrence of a grammar -/

/-- A name bound to a product or a union has the trees of what it is bound to, unless that is being
counted at the same size. -/
theorem plain_countRef_bound {s : String} {t : Ty} (tag : ¬isTag s = true)
    (found : g.get? s = some t) (leaf : ¬t.isLeaf = true) (hn : n ≠ 0) :
    (g.plain mode).countRef active (.name s) n =
      if t.canonical ∈ active then .error (.inconsistent (.cycle t.canonical n))
      else (g.plain mode).countBody (t.canonical :: active) t n := by
  have found' : (g.plain mode).rules.lookup s = some (.ofTy t) :=
    Grammar.lookup_rules_of_bound found
  by_cases met : t.canonical ∈ active
  · rw [if_pos met]
    exact Recurrence.countRef_active _ tag found' leaf met hn
  · rw [if_neg met]
    exact Recurrence.countRef_new _ tag found' leaf met hn

/-- Members are counted exactly where the first and the rest are, and their counts are added. -/
theorem plain_countMembers_cons {r : Ref} {rest : List Ref} {v : Int} :
    (g.plain mode).countMembers active (r :: rest) n = .ok v ↔
      ∃ a b, (g.plain mode).countRef active r n = .ok a ∧
        (g.plain mode).countMembers active rest n = .ok b ∧ a + b = v := by
  rw [Recurrence.countMembers_cons, Except.bind_ok_iff]
  refine exists_congr fun a => ?_
  rw [Except.bind_ok_iff]
  constructor
  · rintro ⟨ha, b, hb, e⟩
    exact ⟨b, ha, hb, Except.ok.inj e⟩
  · rintro ⟨b, ha, hb, rfl⟩
    exact ⟨ha, b, hb, rfl⟩

/-- Splits are counted exactly where the first item, the others and the further splits are. -/
theorem plain_countSplits_fits {head second : Ref} {rest : List Ref} {i : Nat} {v : Int}
    (fits : i + 1 + (rest.length + 1) ≤ n) :
    (g.plain mode).countSplits head second rest n i = .ok v ↔
      ∃ a b others, (g.plain mode).countRef [] head (i + 1) = .ok a ∧
        (g.plain mode).countSequences [] (second :: rest) (n - (i + 1)) = .ok b ∧
        (g.plain mode).countSplits head second rest n (i + 1) = .ok others ∧
        a * b + others = v := by
  rw [Recurrence.countSplits_fits _ _ _ _ fits, Except.bind_ok_iff]
  refine exists_congr fun a => ?_
  rw [Except.bind_ok_iff]
  constructor
  · rintro ⟨ha, b, hb, rest⟩
    obtain ⟨others, ho, e⟩ := Except.bind_ok_iff.1 rest
    exact ⟨b, others, ha, hb, ho, Except.ok.inj e⟩
  · rintro ⟨b, others, ha, hb, ho, rfl⟩
    exact ⟨ha, b, hb, Except.bind_ok_iff.2 ⟨others, ho, rfl⟩⟩

/-- Members of one canonical form each have one count. -/
theorem plain_countMembers_congr {items items' : List Ref}
    (h : items.map Ref.canonical = items'.map Ref.canonical) :
    (g.plain mode).countMembers active items n = (g.plain mode).countMembers active items' n := by
  induction items generalizing items' with
  | nil =>
    cases items' with
    | nil => rfl
    | cons => cases h
  | cons r rest ih =>
    cases items' with
    | nil => cases h
    | cons r' rest' =>
      obtain ⟨first, tail⟩ := List.cons.inj h
      rw [Recurrence.countMembers_cons, Recurrence.countMembers_cons,
        Recurrence.countRef_congr _ first, ih tail]

/-- The order of the members makes no difference to their count. -/
theorem plain_countMembers_perm {items items' : List Ref} (h : items.Perm items') {v : Int}
    (count : (g.plain mode).countMembers active items n = .ok v) :
    (g.plain mode).countMembers active items' n = .ok v := by
  induction h generalizing v with
  | nil => exact count
  | cons r _ ih =>
    obtain ⟨a, b, ha, hb, rfl⟩ := (plain_countMembers_cons g mode).1 count
    exact (plain_countMembers_cons g mode).2 ⟨a, b, ha, ih hb, rfl⟩
  | swap r r' rest =>
    obtain ⟨a, b, ha, hb, rfl⟩ := (plain_countMembers_cons g mode).1 count
    obtain ⟨a', b', ha', hb', rfl⟩ := (plain_countMembers_cons g mode).1 hb
    refine (plain_countMembers_cons g mode).2 ⟨a', a + b', ha', ?_, by omega⟩
    exact (plain_countMembers_cons g mode).2 ⟨a, b', ha, hb', rfl⟩
  | trans _ _ ih₁ ih₂ => exact ih₂ (ih₁ count)

/-- Where a type has a count, every type with its canonical form has the same one. -/
theorem plain_countBody_congr {t t' : Ty} (h : t.canonical = t'.canonical) {v : Int}
    (count : (g.plain mode).countBody active t n = .ok v) :
    (g.plain mode).countBody active t' n = .ok v := by
  obtain ⟨tag, rfl, rfl⟩ | ⟨items, items', rfl, rfl, same⟩ | ⟨items, items', rfl, rfl, perm⟩ :=
    Ty.canonical_cases h
  · exact count
  · rw [← count, Recurrence.countBody, Recurrence.countBody]
    simp only [Recurrence.countSequences_congr _ same]
  · rw [Recurrence.countBody_union] at count ⊢
    have comp : Relation.Comp (fun x y => x = List.map Ref.canonical y) List.Perm
        (items.map Ref.canonical) items' := by
      rw [List.eq_map_comp_perm]
      exact perm
    obtain ⟨between, same, perm'⟩ := comp
    rw [plain_countMembers_congr g mode same] at count
    exact plain_countMembers_perm g mode perm' count

end plain

end TreeGrammar
