import TreeGrammar.Proofs.Samplers.Counting
import TreeGrammar.Proofs.Samplers.Depth

/-!
# What a sampler was asked before

A sampler keeps its table from call to call, also when a call fails. That has no influence on any
answer: over every sound table a call answers as over the empty one, draws the same, and adds to the
table what the recurrence without a table finds. The same is true when the table holds marks for
what is being counted, and no call leaves a mark behind.

* `Table.Exact`: every entry is the count that is found without a table.
* `tabled_countsAlike`: over sound tables counting runs alike.
* `Call`, `Sampler.asked`: calls, and what they draw and answer.
* `Sampler.Oblivious`: what a sampler was asked before has no influence.
* `reachable_oblivious`: so it is for every sampler, after whatever calls.
-/

namespace TreeGrammar

variable {g : Grammar} {mode : Accounting}

/-! ### Entries -/

/-- An entry is the count found without a table, for every type and all items with its key. -/
structure ExactEntry (g : Grammar) (mode : Accounting) (key : String) (n : Nat) (v : Int) :
    Prop where
  positive : 0 < n
  nonneg : 0 ≤ v
  subject : (∃ t : Ty, t.canonical = key) ∨ ∃ items, sequenceKey items = key
  type : ∀ t : Ty, t.canonical = key → (g.plain mode).countRule (.ofTy t) n = .ok v
  sequence : ∀ items, sequenceKey items = key →
    (g.plain mode).countSequences [] items n = .ok v

/-- Every entry is the count that is found without a table. -/
def Table.Exact (g : Grammar) (mode : Accounting) (table : Table) : Prop :=
  ∀ key size v, table.get? key size = some v → ∃ n : Nat, size = n ∧ ExactEntry g mode key n v

/-- A leaf has the canonical form of leaves only. -/
theorem Ty.isLeaf_of_canonical {t t' : Ty} (form : t.canonical = t'.canonical)
    (leaf : t'.isLeaf = true) : t.isLeaf = true := by
  obtain ⟨tag, rfl, rfl⟩ | ⟨items, items', rfl, rfl, same⟩ | ⟨items, items', rfl, rfl, -⟩ :=
    Ty.canonical_cases form
  · rfl
  · cases items' with
    | nil =>
      obtain rfl := List.map_eq_nil_iff.1 same
      rfl
    | cons => cases leaf
  · cases leaf

/-- What is counted of a product or a union is not negative. -/
theorem plain_countBody_nonneg {active : List String} {t : Ty} {n : Nat} {v : Int}
    (compound : ¬t.isLeaf = true) (count : (g.plain mode).countBody active t n = .ok v) :
    0 ≤ v := by
  obtain ⟨-, -, sequences, -, members⟩ := plain_counts g mode
  rcases t with tag | items | items
  · exact absurd rfl compound
  · have inner : items ≠ [] := fun none => compound (by rw [none]; rfl)
    rcases mode with _ | _
    · by_cases hn : n = 0
      · subst hn
        rw [Recurrence.countBody_product_nodes_zero _ _ rfl] at count
        exact (Except.ok.inj count).le
      · rw [Recurrence.countBody_product_nodes _ _ rfl hn] at count
        exact (sequences _ _ _ inner _ count).nonneg
    · rw [Recurrence.countBody_product_leaves _ _ rfl] at count
      exact (sequences _ _ _ inner _ count).nonneg
  · rw [Recurrence.countBody_union] at count
    exact (members _ _ _ _ count).nonneg

/-- The entries of a sound table are the counts that are found without one. -/
theorem Table.Sound.exact {table : Table} (sound : table.Sound g mode) :
    table.Exact g mode := by
  intro key size v kept
  obtain ⟨n, rfl, hn, account⟩ := sound key size v kept
  have sequence : ∀ items, sequenceKey items = key →
      (g.plain mode).countSequences [] items n = .ok v := by
    rintro items rfl
    exact sound.count_of_sequence kept
  refine ⟨n, rfl, Nat.pos_of_ne_zero hn, ?_, ?_, ?_, sequence⟩
  · rcases account with ⟨t, compound, rfl, count⟩ | ⟨head, second, rest, rfl, count⟩
    · exact plain_countBody_nonneg compound (count [] (Clear.nil table n))
    · exact ((plain_counts g mode).2.2.1 _ _ _ (List.cons_ne_nil _ _) _ count).nonneg
  · rcases account with ⟨t, -, form, -⟩ | ⟨head, second, rest, form, -⟩
    · exact Or.inl ⟨t, form⟩
    · exact Or.inr ⟨_, form⟩
  · rintro t rfl
    have compound : ¬t.isLeaf = true := by
      intro leaf
      rcases account with ⟨t', compound, form, -⟩ | ⟨head, second, rest, form, -⟩
      · exact compound (Ty.isLeaf_of_canonical form leaf)
      · exact sequenceKey_ne_canonical _ t form
    rw [Recurrence.countRule_body _ compound hn]
    exact sound.count_of_type kept (Clear.nil table n)

/-- The counts in a sound table are not negative. -/
theorem Table.Sound.nonneg {table : Table} (sound : table.Sound g mode) (key : String)
    (size v : Int) (kept : table.get? key size = some v) : 0 ≤ v := by
  obtain ⟨n, -, entry⟩ := sound.exact key size v kept
  exact entry.nonneg

/-- Two tables have the same entries. -/
def Table.Same (t t' : Table) : Prop :=
  ∀ key size, t.get? key size = t'.get? key size

/-- A table with the entries of a sound one is that table without any mark. -/
theorem Table.Sound.marked {t table : Table} (sound : table.Sound g mode) (same : t.Same table) :
    Table.Marked [] table t := by
  refine ⟨sound.nonneg, nofun, fun key size => ?_⟩
  rw [same, if_neg List.not_mem_nil]

/-- Where nothing is marked there are no marks. -/
theorem Table.Marked.same {t t' : Table} (marked : Table.Marked [] t t') :
    t'.Same t ∧ ∀ key size, t'.get? key size ≠ some inProgress := by
  have same : t'.Same t := fun key size => by rw [marked.shows, if_neg List.not_mem_nil]
  refine ⟨same, fun key size mark => ?_⟩
  have nonneg := marked.nonneg key size _ ((same key size).symm.trans mark)
  exact absurd nonneg (by decide)

/-! ### Counting over sound tables -/

/-- Two sound tables, the first of which has grown out of another. -/
structure SoundPair (g : Grammar) (mode : Accounting) (before t t' : Table) : Prop where
  sound : t.Sound g mode
  sound' : t'.Sound g mode
  grows : before.Extends t

/-- A faithful computation runs alike over all sound tables. -/
theorem Faithful.alike {α : Type} {n : Nat} {x : CountM α}
    {plain : List String → Except Failure α} (h : Faithful g mode [] n x plain) (before : Table) :
    CountM.Alike (SoundPair g mode before) (fun _ => True) x x := by
  rintro t t' ⟨sound, sound', grows⟩
  have s := h t sound (Clear.nil t n)
  have s' := h t' sound' (Clear.nil t' n)
  obtain ⟨u, run, -⟩ := h.answers t sound
  obtain ⟨u', run', -⟩ := h.answers t' sound'
  refine ⟨?_, ⟨s.sound, s'.sound, grows.trans s.grows⟩, fun _ _ => trivial⟩
  rw [run, run']

/-- Over sound tables counting runs alike. -/
theorem tabled_countsAlike (before : Table) :
    Recurrence.CountsAlike (SoundPair g mode before) (g.tabled mode) (g.tabled mode) := by
  obtain ⟨ref, -, sequences, -, -⟩ := tabled_faithful g mode
  refine ⟨rfl, rfl, fun r n => (ref [] r n).alike before,
    fun items n => (sequences [] items n).alike before, fun rule n => ?_⟩
  obtain ⟨plain, -, faithful⟩ := exists_faithful_countRule g mode rule n
  exact faithful.alike before

/-! ### Calls -/

/-- What may be asked of a sampler. -/
inductive Call where
  | count (name : String) (n : Int)
  | countRef (r : Ref) (n : Int)
  | countType (t : Ty) (n : Int)
  | sizes (name : String) (last : Int)
  | generate (name : String) (n : Int)

/-- What a sampler may answer. -/
inductive Answer where
  | count (v : Int)
  | sizes (ns : List Nat)
  | tree (t : Sample)

/-- What a call comes to under a recurrence. -/
def Call.run (c : Recurrence CountM) : Call → Grow Answer
  | count name n => Answer.count <$> Grow.ofCount (c.countRef [] (.name name) n.toNat)
  | countRef r n => Answer.count <$> Grow.ofCount (c.countRef [] r n.toNat)
  | countType t n => Answer.count <$> Grow.ofCount (c.countRule (.ofTy t) n.toNat)
  | sizes name last =>
    Answer.sizes <$> Grow.ofCount (Sampler.sizesUpTo c name last.toNat last.toNat)
  | generate name n => Answer.tree <$> c.growRef .start (.name name) n.toNat

namespace Sampler

/-- What a call draws and answers, with the table afterwards. -/
def asked (s : Sampler) : Call → Draw (Except Failure Answer × Table)
  | .count name n => .done ((s.count name n).1.map .count, (s.count name n).2.table)
  | .countRef r n => .done ((s.countRef r n).1.map .count, (s.countRef r n).2.table)
  | .countType t n => .done ((s.countType t n).1.map .count, (s.countType t n).2.table)
  | .sizes name last => .done ((s.sizes name last).1.map .sizes, (s.sizes name last).2.table)
  | .generate name n => (fun out => (out.1.map .tree, out.2)) <$> s.generation name n

/-- Every call runs on the sampler's recurrence. -/
theorem asked_eq (s : Sampler) (call : Call) :
    s.asked call = (call.run s.recurrence).on s.table := by
  cases call with
  | generate name n => rw [asked, Call.run, Grow.on_map, generation]
  | _ =>
    rw [Call.run, Grow.on_map]
    rfl

end Sampler

/-- Calls run alike under recurrences that count alike. -/
theorem Recurrence.CountsAlike.run {I : Table → Table → Prop} {c c' : Recurrence CountM}
    (alike : CountsAlike I c c') (call : Call) : Grow.Alike I (call.run c) (call.run c') := by
  cases call with
  | count name n => exact (Grow.Alike.ofCount (alike.ref _ _)).map _
  | countRef r n => exact (Grow.Alike.ofCount (alike.ref _ _)).map _
  | countType t n => exact (Grow.Alike.ofCount (alike.rule _ _)).map _
  | sizes name last =>
    have list : ∀ left, CountM.Alike I (fun _ => True)
        (Sampler.sizesUpTo c name last.toNat left) (Sampler.sizesUpTo c' name last.toNat left) := by
      intro left
      induction left with
      | zero => exact .pure trivial
      | succ left ih => exact (alike.ref _ _).bind fun _ _ => ih.bind fun _ _ => .pure trivial
    exact (Grow.Alike.ofCount (list _)).map _
  | generate name n => exact (alike.grow.1 _ _ _).map _

/-! ### The table is invisible -/

namespace Draw

variable {α β : Type}

/-- What holds of the results of one computation holds wherever it is run beside another. -/
theorem Rel.and_left {R : α → α → Prop} {S : α → β → Prop} {x : Draw α} {y : Draw β}
    (own : Rel R x x) (h : Rel S x y) : Rel (fun a b => R a a ∧ S a b) x y := by
  induction h with
  | done related =>
    cases own with
    | done own => exact .done ⟨own, related⟩
  | ask _ ih =>
    cases own with
    | ask own => exact .ask fun answer => ih answer (own answer)

end Draw

namespace Sampler.Sound

variable {s s' : Sampler}

/-- Two samplers with sound tables run alike, and every call adds to the table. -/
theorem asked_alike (sound : s.Sound g mode) (sound' : s'.Sound g mode) (call : Call) :
    Draw.Rel (fun out out' => out.1 = out'.1 ∧ SoundPair g mode s.table out.2 out'.2)
      (s.asked call) (s'.asked call) := by
  rw [asked_eq, asked_eq, sound.recurrence_eq, sound'.recurrence_eq]
  exact (tabled_countsAlike s.table).run call _ _ ⟨sound.table, sound'.table, .refl s.table⟩

/-- Run on one source, a call for a tree has one outcome and asks for the same totals. -/
theorem generate_same (sound : s.Sound g mode) (sound' : s'.Sound g mode)
    (source : s.source = s'.source) (name : String) (n : Int) :
    (s.generate name n).result = (s'.generate name n).result ∧
      (s.generate name n).totals = (s'.generate name n).totals := by
  have draws : Prod.fst <$> s.generation name n = Prod.fst <$> s'.generation name n := by
    have alike := (tabled_countsAlike s.table).grow.1 .start (.name name) n.toNat _ _
      ⟨sound.table, sound'.table, .refl s.table⟩
    rw [generation, generation, sound.recurrence_eq, sound'.recurrence_eq]
    exact (alike.mono fun _ _ h => h.1).map_eq
  have runs := congrArg (·.run s.source) draws
  simp only [Draw.run_map, Prod.mk.injEq] at runs
  rw [generate_eq, generate_eq, ← source]
  exact ⟨runs.1, congrArg Prod.snd runs.2⟩

/-- A call runs alike on a table that holds marks. -/
theorem asked_marked (sound : s.Sound g mode) (call : Call) {t : Table} (same : t.Same s.table) :
    Draw.Rel (fun out out' => out.1 = out'.1 ∧ Table.Marked [] out.2 out'.2)
      (s.asked call) ((call.run (.marking g.rules mode)).on t) := by
  rw [asked_eq, sound.recurrence_eq]
  exact marking_countsAlike.run call _ _ (sound.table.marked same)

/-- Counting by calls, with marks, settles at the outcome of counting that it runs alike with. -/
theorem tally_settles (sound : s.Sound g mode) {x y : CountM Int} {z : Failure → Nat → CountM Int}
    {Q : Int → Prop} (alike : CountM.Alike (Table.Marked []) Q x y) (settles : SettlesAs [] z y)
    {t : Table} (same : t.Same s.table) :
    ∃ u, u.Same (s.tally x).2.table ∧ Settles z t ((s.tally x).1, u) := by
  have marked := sound.table.marked same
  obtain ⟨outcome, marked', -⟩ := alike _ _ marked
  refine ⟨(y.on t).2, marked'.same.1, ?_⟩
  have settled := settles t ⟨_, marked⟩
  rwa [show ((s.tally x).1, (y.on t).2) = y.on t from Prod.ext outcome rfl]

end Sampler.Sound

/-- What a sampler over a grammar was asked before has no influence, and it never runs on. -/
structure Sampler.Oblivious (g : Grammar) (mode : Accounting) (s : Sampler) : Prop where
  /-- Every call draws the same and has the same outcome as for a fresh sampler. -/
  answers : ∀ call, Prod.fst <$> s.asked call =
    Prod.fst <$> (Sampler.ofGrammar g mode s.source).asked call
  /-- So does a call for a tree on the sampler's own source. -/
  generate : ∀ name n,
    (s.generate name n).result = ((Sampler.ofGrammar g mode s.source).generate name n).result ∧
    (s.generate name n).totals = ((Sampler.ofGrammar g mode s.source).generate name n).totals
  /-- Whatever is drawn and whether the call fails or not: what was in the table stays, all entries
  are counts as found without a table, and were the table to hold marks for what is being counted,
  the outcome and the entries would be the same, and no mark would be left. -/
  table : ∀ call t, t.Same s.table →
    Draw.Rel (fun out marked => marked.1 = out.1 ∧ s.table.Extends out.2 ∧ out.2.Exact g mode ∧
        marked.2.Same out.2 ∧ ∀ key size, marked.2.get? key size ≠ some Table.inProgress)
      (s.asked call) ((call.run (.marking g.rules mode)).on t)
  /-- Counting by calls that know of each other through marks only does not go deeper than some
  bound. -/
  ref_ends : ∀ r n t, t.Same s.table → ∃ u, u.Same (s.countRef r n).2.table ∧
    Settles (fun e d => Job.run g.rules mode e d (.ref r n.toNat)) t ((s.countRef r n).1, u)
  /-- The same of counting for a type. -/
  type_ends : ∀ ty n t, t.Same s.table → ∃ u, u.Same (s.countType ty n).2.table ∧
    Settles (fun e d => Job.run g.rules mode e d (.type (.ofTy ty) n.toNat)) t
      ((s.countType ty n).1, u)
  /-- Draws within the limits lead to an end, and not because a type was met again too often: a
  call for a tree fails only where counting does, or the name is bound nowhere. -/
  generate_ends : ∀ name n, (s.generation name n).Always fun out => ∀ e, out.1 = .error e →
    (s.count name n).1 = .error e ∨
      (¬isTag name = true ∧ g.get? name = none) ∧ e = .undefinedName name none

/-- Whatever a sampler was asked before, over any grammar, and whichever of the calls failed, that
has no influence on what it is asked next. -/
theorem reachable_oblivious {s : Sampler} (reachable : s.Reachable g mode) :
    s.Oblivious g mode := by
  have sound := reachable.sound
  have fresh : (Sampler.ofGrammar g mode s.source).Sound g mode := Sampler.sound_ofGrammar s.source
  have tabled : s.recurrence = .tabled g.rules mode := sound.recurrence_eq
  refine ⟨fun call => ?_, sound.generate_same fresh rfl, fun call t same => ?_,
    fun r n t same => ?_, fun ty n t same => ?_, fun name n => ?_⟩
  case refine_1 => exact ((sound.asked_alike fresh call).mono fun _ _ h => h.1).map_eq
  case refine_2 =>
    refine ((sound.asked_alike sound call).and_left (sound.asked_marked call same)).mono ?_
    rintro out marked ⟨⟨-, pair⟩, outcome, entries⟩
    exact ⟨outcome.symm, pair.grows, pair.sound.exact, entries.same⟩
  case refine_3 =>
    rw [Sampler.countRef, tabled]
    exact sound.tally_settles (marking_countsAlike.ref r n.toNat) (run_settles_ref r n.toNat) same
  case refine_4 =>
    rw [Sampler.countType, tabled]
    exact sound.tally_settles (marking_countsAlike.rule (.ofTy ty) n.toNat)
      (run_settles_type (.ofTy ty) n.toNat) same
  case refine_5 =>
    refine (sound.always_sound name n).mono fun out h e failed => ?_
    rcases h.2 e failed with ⟨unknown, e⟩ | failed'
    · exact Or.inr ⟨Sampler.Sound.unbound_of_not_accounts unknown, e⟩
    · exact Or.inl (by rw [sound.count, failed'])

/-- A call that meets a cycle fails, and nothing that is asked afterwards suffers from it. -/
theorem reachable_oblivious_twins :
    ((Sampler.ofGrammar (.ofBindings twins) .leaves (.ofState 0)).count "B" 1).1 =
        .error (.inconsistent (.cycle "Product(\"B\")" 1)) ∧
      Sampler.Oblivious (.ofBindings twins) .leaves
        ((Sampler.ofGrammar (.ofBindings twins) .leaves (.ofState 0)).count "B" 1).2 :=
  ⟨by cbv, reachable_oblivious (.next (.fresh (.ofState 0)) (.count _ "B" 1))⟩

end TreeGrammar
