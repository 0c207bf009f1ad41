import TreeGrammar.Proofs.Counting.Plain
import TreeGrammar.Sampling.Growth

/-!
# The table of counts is invisible

Counts are kept in a table by canonical form and size, and types that are being counted at a size
are not counted again at that size. A count that was kept must neither hide a failure that counting
anew would meet, nor bring one. It does neither because of two facts that every computation over a
table preserves. Every entry is the count that the recurrence without a table finds, whatever other
types are being counted, so long as none of *them* has an entry at the size (`Table.Sound`). And the
types being counted at a size have no entries at that size (`Clear`): a type gets its entry when all
it is made of has been counted, so what is being counted is never reached from an entry.

* `Settled`: what a computation with a given answer leaves behind.
* `Faithful`: a computation over tables answers as one without, over every sound table.
* `tabled_faithful`: every count of the recurrence with a table is faithful to the plain one.
* `Answers`: what that says of computations begun while nothing is being counted.
-/

namespace TreeGrammar

/-! ### Running a computation on a table -/

namespace CountM

variable {α β : Type}

/-- Runs a computation on a table. -/
def on (x : CountM α) (table : Table) : Except Failure α × Table :=
  x.run.run table

/-- Equation lemma: a result alone leaves the table as it is. -/
@[simp] theorem on_pure (a : α) (table : Table) : (pure a : CountM α).on table = (.ok a, table) :=
  rfl

/-- Equation lemma: a failure leaves the table as it is. -/
@[simp] theorem on_throw (e : Failure) (table : Table) :
    (throw e : CountM α).on table = (.error e, table) := rfl

/-- Equation lemma: what follows runs on the table left behind, and after a failure nothing does. -/
theorem on_bind (x : CountM α) (f : α → CountM β) (table : Table) :
    (x >>= f).on table =
      match x.on table with
      | (.ok a, table') => (f a).on table'
      | (.error e, table') => (.error e, table') := by
  change ((x.run >>= ExceptT.bindCont f).run table : Except Failure β × Table) = _
  rw [StateT.run_bind]
  change (ExceptT.bindCont f (x.on table).1).run (x.on table).2 = _
  rcases x.on table with ⟨e | a, table'⟩
  · rfl
  · rfl

/-- What follows a success runs on the table that it leaves behind. -/
theorem on_bind_ok {x : CountM α} {f : α → CountM β} {table table' : Table} {a : α}
    (h : x.on table = (.ok a, table')) : (x >>= f).on table = (f a).on table' := by
  rw [on_bind, h]

/-- After a failure nothing runs, and what was kept until then stays. -/
theorem on_bind_error {x : CountM α} {f : α → CountM β} {table table' : Table} {e : Failure}
    (h : x.on table = (.error e, table')) : (x >>= f).on table = (.error e, table') := by
  rw [on_bind, h]

end CountM

namespace Table

/-- A count that is kept is the answer, and nothing is found anew. -/
theorem on_remember_kept {key : String} {n : Nat} {find : Unit → CountM Int} {table : Table}
    {v : Int} (h : table.get? key n = some v) :
    (remember key n find).on table = (.ok v, table) := by
  unfold remember
  rw [CountM.on_bind]
  simp only [show (get : CountM Table).on table = (.ok table, table) from rfl, h]
  rfl

/-- A count that is found is kept and is the answer. -/
theorem on_remember_ok {key : String} {n : Nat} {find : Unit → CountM Int} {table table' : Table}
    {v : Int} (h : table.get? key n = none) (found : (find ()).on table = (.ok v, table')) :
    (remember key n find).on table = (.ok v, table'.insert key n v) := by
  unfold remember
  rw [CountM.on_bind]
  simp only [show (get : CountM Table).on table = (.ok table, table) from rfl, h]
  rw [CountM.on_bind_ok found]
  rfl

/-- Where no count is found nothing is kept for it. -/
theorem on_remember_error {key : String} {n : Nat} {find : Unit → CountM Int}
    {table table' : Table} {e : Failure} (h : table.get? key n = none)
    (failed : (find ()).on table = (.error e, table')) :
    (remember key n find).on table = (.error e, table') := by
  unfold remember
  rw [CountM.on_bind]
  simp only [show (get : CountM Table).on table = (.ok table, table) from rfl, h]
  rw [CountM.on_bind_error failed]

/-- Every entry of one table is an entry of another. -/
def Extends (table table' : Table) : Prop :=
  ∀ key size v, table.get? key size = some v → table'.get? key size = some v

/-- A table has its own entries. -/
theorem Extends.refl (table : Table) : table.Extends table := fun _ _ _ h => h

/-- Entries that stay in one table and then in the next stay in both. -/
theorem Extends.trans {t₁ t₂ t₃ : Table} (h₁ : t₁.Extends t₂) (h₂ : t₂.Extends t₃) :
    t₁.Extends t₃ := fun key size v h => h₂ key size v (h₁ key size v h)

/-- A new entry leaves those that there were. -/
theorem Extends.insert {table : Table} {key : String} {size : Int}
    (new : table.get? key size = none)
    (v : Int) : table.Extends (table.insert key size v) := by
  intro key' size' v' h
  rw [get?_insert]
  by_cases same : key = key' ∧ size = size'
  · obtain ⟨rfl, rfl⟩ := same
    rw [new] at h
    cases h
  · rw [if_neg same, h]

end Table

/-! ### Sound tables -/

/-- The types in `active`, by canonical form, have no entries at size `n`. -/
def Clear (active : List String) (table : Table) (n : Nat) : Prop :=
  ∀ key ∈ active, (∃ t : Ty, t.canonical = key) ∧ table.get? key n = none

/-- Nothing is being counted, so nothing has to be missing. -/
theorem Clear.nil (table : Table) (n : Nat) : Clear [] table n :=
  fun _ h => absurd h List.not_mem_nil

/-- What has no entry in a table has none in one with fewer entries. -/
theorem Clear.of_extends {active : List String} {table table' : Table} {n : Nat}
    (h : Clear active table' n) (le : table.Extends table') : Clear active table n := by
  intro key hk
  refine ⟨(h key hk).1, ?_⟩
  rcases e : table.get? key n with _ | v
  · rfl
  · have kept := le key n v e
    rw [(h key hk).2] at kept
    cases kept

/-- What has an entry is not being counted. -/
theorem Clear.notMem {active : List String} {table : Table} {n : Nat} {key : String} {v : Int}
    (h : Clear active table n) (kept : table.get? key n = some v) : key ∉ active := by
  intro hk
  rw [(h key hk).2] at kept
  cases kept

section sound

variable (g : Grammar) (mode : Accounting)

/-- An entry is accounted for: it is the count of a type, whatever types without entries are being
counted, or the count of the sequences for at least two items. -/
inductive Table.Accounted (table : Table) (key : String) (n : Nat) (v : Int) : Prop where
  | type (t : Ty) (compound : ¬t.isLeaf = true) (form : t.canonical = key)
      (count : ∀ active, Clear active table n →
        (g.plain mode).countBody (key :: active) t n = .ok v)
  | sequence (head second : Ref) (rest : List Ref)
      (form : sequenceKey (head :: second :: rest) = key)
      (count : (g.plain mode).countSequences [] (head :: second :: rest) n = .ok v)

/-- Every entry is accounted for, and has a positive size. -/
def Table.Sound (table : Table) : Prop :=
  ∀ key size v, table.get? key size = some v →
    ∃ n : Nat, size = n ∧ n ≠ 0 ∧ table.Accounted g mode key n v

variable {g mode}

/-- What is accounted for stays so as entries are added, for then there are fewer types without
one. -/
theorem Table.Accounted.of_extends {table table' : Table} {key : String} {n : Nat} {v : Int}
    (h : table.Accounted g mode key n v) (le : table.Extends table') :
    table'.Accounted g mode key n v := by
  rcases h with ⟨t, compound, form, count⟩ | ⟨head, second, rest, form, count⟩
  · exact .type t compound form fun active hc => count active (hc.of_extends le)
  · exact .sequence head second rest form count

/-- Every entry of the empty table is accounted for. -/
theorem Table.sound_empty : Table.empty.Sound g mode := by
  intro key size v h
  rw [Table.get?_empty] at h
  cases h

/-- A table stays sound when a count is kept that the larger table accounts for. -/
theorem Table.Sound.insert {table : Table} (sound : table.Sound g mode) {key : String} {n : Nat}
    {v : Int} (hn : n ≠ 0) (new : table.get? key n = none)
    (entry : (table.insert key n v).Accounted g mode key n v) :
    (table.insert key n v).Sound g mode := by
  intro key' size' v' h
  rw [Table.get?_insert] at h
  by_cases same : key = key' ∧ (n : Int) = size'
  · rw [if_pos same] at h
    obtain ⟨rfl, rfl⟩ := same
    obtain rfl := Option.some.inj h
    exact ⟨n, rfl, hn, entry⟩
  · rw [if_neg same] at h
    obtain ⟨n', rfl, hn', account⟩ := sound key' size' v' h
    exact ⟨n', rfl, hn', account.of_extends (Table.Extends.insert new v)⟩

/-- The entry at a type's canonical form is the type's count. -/
theorem Table.Sound.count_of_type {table : Table} (sound : table.Sound g mode) {t : Ty} {n : Nat}
    {v : Int} (kept : table.get? t.canonical n = some v) {active : List String}
    (clear : Clear active table n) :
    (g.plain mode).countBody (t.canonical :: active) t n = .ok v := by
  obtain ⟨n', e, -, account⟩ := sound _ _ _ kept
  obtain rfl : n = n' := by exact_mod_cast e
  rcases account with ⟨t', -, form, count⟩ | ⟨head, second, rest, form, -⟩
  · exact plain_countBody_congr g mode form (count active clear)
  · exact absurd form (sequenceKey_ne_canonical _ t)

/-- The entry at the key of several items is the count of their sequences. -/
theorem Table.Sound.count_of_sequence {table : Table} (sound : table.Sound g mode)
    {items : List Ref} {n : Nat} {v : Int} (kept : table.get? (sequenceKey items) n = some v) :
    (g.plain mode).countSequences [] items n = .ok v := by
  obtain ⟨n', e, -, account⟩ := sound _ _ _ kept
  obtain rfl : n = n' := by exact_mod_cast e
  rcases account with ⟨t', -, form, -⟩ | ⟨head, second, rest, form, count⟩
  · exact absurd form.symm (sequenceKey_ne_canonical items t')
  · rw [← count]
    exact Recurrence.countSequences_congr _ (sequenceKey_inj form.symm)

/-! ### Faithful computations -/

/-- What a computation leaves behind that was begun on a sound table at size `n`, while the types in
`active` were being counted: a sound table with entries added at sizes up to `n` and none for the
types in `active`, and an answer that counting without a table gives as well. A success must not
depend on what was being counted. -/
structure Settled (g : Grammar) (mode : Accounting) {α : Type} (active : List String) (n : Nat)
    (plain : List String → Except Failure α) (table : Table) (outcome : Except Failure α × Table) :
    Prop where
  sound : outcome.2.Sound g mode
  grows : table.Extends outcome.2
  above : ∀ key size, (n : Int) < size → outcome.2.get? key size = table.get? key size
  clear : Clear active outcome.2 n
  found : ∀ a, outcome.1 = .ok a → ∀ active', Clear active' outcome.2 n → plain active' = .ok a
  failed : ∀ e, outcome.1 = .error e → plain active = .error e

/-- A computation over tables is faithful to one without. -/
def Faithful (g : Grammar) (mode : Accounting) {α : Type} (active : List String) (n : Nat)
    (x : CountM α) (plain : List String → Except Failure α) : Prop :=
  ∀ table, table.Sound g mode → Clear active table n →
    Settled g mode active n plain table (x.on table)

namespace Faithful

variable {α β : Type} {active : List String} {n : Nat}

/-- A result alone is faithful to itself. -/
theorem pure (a : α) : Faithful g mode active n (pure a) fun _ => .ok a := by
  intro table sound clear
  exact ⟨sound, .refl table, fun _ _ _ => rfl, clear, fun b e _ _ => e, nofun⟩

/-- A failure is faithful where counting without a table fails in the same way. -/
theorem throw {e : Failure} {plain : List String → Except Failure α}
    (fails : plain active = .error e) : Faithful g mode active n (throw e) plain := by
  intro table sound clear
  refine ⟨sound, .refl table, fun _ _ _ => rfl, clear, nofun, fun e' h => ?_⟩
  rw [fails]
  exact h

/-- Faithful computations may follow one another. -/
theorem bind {x : CountM α} {f : α → CountM β} {plain : List String → Except Failure α}
    {plain' : α → List String → Except Failure β} (hx : Faithful g mode active n x plain)
    (hf : ∀ a, Faithful g mode active n (f a) (plain' a)) :
    Faithful g mode active n (x >>= f) fun other => plain other >>= fun a => plain' a other := by
  intro table sound clear
  have sx := hx table sound clear
  rcases hon : x.on table with ⟨e | a, table'⟩
  · rw [hon] at sx
    rw [CountM.on_bind_error hon]
    refine ⟨sx.sound, sx.grows, sx.above, sx.clear, nofun, fun e' h => ?_⟩
    obtain rfl := Except.error.inj h
    exact Except.bind_error_iff.2 (Or.inl (sx.failed e rfl))
  · rw [hon] at sx
    rw [CountM.on_bind_ok hon]
    have sf := hf a table' sx.sound sx.clear
    refine ⟨sf.sound, sx.grows.trans sf.grows, fun key size h => ?_, sf.clear,
      fun b h other hc => ?_,
      fun e h => ?_⟩
    · exact (sf.above key size h).trans (sx.above key size h)
    · rw [Except.bind_ok_iff]
      exact ⟨a, sx.found a rfl other (hc.of_extends sf.grows), sf.found b h other hc⟩
    · rw [Except.bind_error_iff]
      exact Or.inr ⟨a, sx.found a rfl active sx.clear, sf.failed e h⟩

/-- Begun while nothing is being counted, a computation may count at smaller sizes too, and its
answer does not depend on what is being counted. -/
theorem of_le {x : CountM α} {plain : List String → Except Failure α} {k : Nat} (le : k ≤ n)
    (h : Faithful g mode [] k x plain) : Faithful g mode [] n x fun _ => plain [] := by
  intro table sound _
  have s := h table sound (Clear.nil table k)
  exact ⟨s.sound, s.grows, fun key size hs => s.above key size (by omega), Clear.nil _ n,
    fun a e _ _ => s.found a e [] (Clear.nil _ k), s.failed⟩

/-- Nothing is being counted at a smaller size yet, and what is counted there leaves the entries at
greater sizes alone. -/
theorem of_lt {x : CountM α} {plain : List String → Except Failure α} {k : Nat} (smaller : k < n)
    (h : Faithful g mode [] k x plain) : Faithful g mode active n x fun _ => plain [] := by
  intro table sound clear
  have s := h table sound (Clear.nil table k)
  refine ⟨s.sound, s.grows, fun key size hs => s.above key size (by omega), fun key hk => ?_,
    fun a e _ _ => s.found a e [] (Clear.nil _ k), s.failed⟩
  refine ⟨(clear key hk).1, ?_⟩
  rw [s.above key n (by omega)]
  exact (clear key hk).2

/-- A type's count is kept when all it is made of has been counted. Till then the type has no entry,
so the entry may be accounted for without regard to the type itself. -/
theorem remember_type {t : Ty} {find : CountM Int} (hn : n ≠ 0)
    (compound : ¬t.isLeaf = true) (new : t.canonical ∉ active)
    (hfind : Faithful g mode (t.canonical :: active) n find
      fun other => (g.plain mode).countBody other t n) :
    Faithful g mode active n (Table.remember t.canonical n fun _ => find) fun other =>
      if t.canonical ∈ other then .error (.inconsistent (.cycle t.canonical n))
      else (g.plain mode).countBody (t.canonical :: other) t n := by
  intro table sound clear
  rcases kept : table.get? t.canonical n with _ | v
  · have clear' : Clear (t.canonical :: active) table n := by
      intro key hk
      rcases List.mem_cons.1 hk with rfl | hk
      · exact ⟨⟨t, rfl⟩, kept⟩
      · exact clear key hk
    have s := hfind table sound clear'
    rcases hon : find.on table with ⟨e | v, table'⟩
    · rw [hon] at s
      rw [Table.on_remember_error kept hon]
      refine ⟨s.sound, s.grows, s.above, fun key hk => s.clear key (List.mem_cons_of_mem _ hk),
        nofun, fun e' h => ?_⟩
      rw [if_neg new]
      exact (s.failed e rfl).trans h
    · rw [hon] at s
      rw [Table.on_remember_ok kept hon]
      have new' : table'.get? t.canonical n = none := (s.clear _ List.mem_cons_self).2
      have grows := Table.Extends.insert new' v
      -- no entry shows that the type was being counted, so it may be added to any other types
      have count : ∀ other, Clear other (table'.insert t.canonical n v) n →
          (g.plain mode).countBody (t.canonical :: other) t n = .ok v := by
        intro other hc
        refine s.found v rfl _ fun key hk => ?_
        rcases List.mem_cons.1 hk with rfl | hk
        · exact ⟨⟨t, rfl⟩, new'⟩
        · exact hc.of_extends grows key hk
      have entry : (table'.insert t.canonical n v).get? t.canonical n = some v := by
        rw [Table.get?_insert, if_pos ⟨rfl, rfl⟩]
      refine ⟨s.sound.insert hn new' (.type t compound rfl count), s.grows.trans grows,
        fun key size h => ?_, fun key hk => ⟨(clear key hk).1, ?_⟩, fun a h other hc => ?_,
        nofun⟩
      · rw [Table.get?_insert, if_neg (by rintro ⟨-, e⟩; omega)]
        exact s.above key size h
      · rw [Table.get?_insert, if_neg (by rintro ⟨rfl, -⟩; exact new hk)]
        exact (s.clear key (List.mem_cons_of_mem _ hk)).2
      · obtain rfl := Except.ok.inj h
        rw [if_neg (hc.notMem entry)]
        exact count other hc
  · rw [Table.on_remember_kept kept]
    refine ⟨sound, .refl table, fun _ _ _ => rfl, clear, fun a h other hc => ?_, nofun⟩
    obtain rfl := Except.ok.inj h
    rw [if_neg (hc.notMem kept)]
    exact sound.count_of_type kept hc

/-- The count for several items is kept likewise. Its key is no type's, and it is found at smaller
sizes only. -/
theorem remember_sequence {head second : Ref} {rest : List Ref} {find : CountM Int}
    {k : Nat} (smaller : k < n)
    (hfind : Faithful g mode [] k find fun _ =>
      (g.plain mode).countSequences [] (head :: second :: rest) n) :
    Faithful g mode active n (Table.remember (sequenceKey (head :: second :: rest)) n fun _ => find)
      fun _ => (g.plain mode).countSequences [] (head :: second :: rest) n := by
  intro table sound clear
  rcases kept : table.get? (sequenceKey (head :: second :: rest)) n with _ | v
  · have s : Settled g mode active n _ table (find.on table) :=
      of_lt smaller hfind table sound clear
    have above := (hfind table sound (Clear.nil table k)).above
    rcases hon : find.on table with ⟨e | v, table'⟩
    · rw [hon] at s
      rw [Table.on_remember_error kept hon]
      exact ⟨s.sound, s.grows, s.above, s.clear, nofun, s.failed⟩
    · rw [hon] at s above
      rw [Table.on_remember_ok kept hon]
      have new : table'.get? (sequenceKey (head :: second :: rest)) n = none := by
        rw [above _ _ (by omega), kept]
      have count := s.found v rfl active s.clear
      have grows := Table.Extends.insert new v
      refine ⟨s.sound.insert (by omega) new (.sequence head second rest rfl count),
        s.grows.trans grows, fun key size h => ?_, fun key hk => ⟨(clear key hk).1, ?_⟩,
        fun a h _ _ => ?_, nofun⟩
      · rw [Table.get?_insert, if_neg (by rintro ⟨-, e⟩; omega)]
        exact s.above key size h
      · obtain ⟨t, rfl⟩ := (clear key hk).1
        rw [Table.get?_insert, if_neg fun e => sequenceKey_ne_canonical _ t e.1]
        exact (s.clear _ hk).2
      · obtain rfl := Except.ok.inj h
        exact count
  · rw [Table.on_remember_kept kept]
    refine ⟨sound, .refl table, fun _ _ _ => rfl, clear, fun a h _ _ => ?_, nofun⟩
    obtain rfl := Except.ok.inj h
    exact sound.count_of_sequence kept

end Faithful

/-! ### The recurrence with a table -/

/-- The recurrence of a grammar with a table. -/
def Grammar.tabled (g : Grammar) (mode : Accounting) : Recurrence CountM :=
  .tabled g.rules mode

variable (g mode)

/-- Every count of the recurrence with a table is faithful to the plain recurrence. The induction
follows the recurrence. What is kept is counted at the size of its entry; the sequences for several
items are counted at smaller sizes, where nothing is being counted yet. -/
theorem tabled_faithful :
    (∀ active r n, Faithful g mode active n ((g.tabled mode).countRef active r n)
      fun other => (g.plain mode).countRef other r n) ∧
    (∀ active t n, Faithful g mode active n ((g.tabled mode).countBody active t n)
      fun other => (g.plain mode).countBody other t n) ∧
    (∀ active items n, Faithful g mode active n ((g.tabled mode).countSequences active items n)
      fun other => (g.plain mode).countSequences other items n) ∧
    (∀ head second rest n i, Faithful g mode [] (n - 1)
      ((g.tabled mode).countSplits head second rest n i)
      fun _ => (g.plain mode).countSplits head second rest n i) ∧
    (∀ active items n, Faithful g mode active n ((g.tabled mode).countMembers active items n)
      fun other => (g.plain mode).countMembers other items n) := by
  apply Recurrence.induction (g.tabled mode)
  case zero =>
    intro active r
    simp only [Recurrence.countRef_zero]
    exact Faithful.pure 0
  case nameless =>
    intro active r n hn hr
    rw [Recurrence.countRef_nameless _ hr hn]
    exact Faithful.throw (Recurrence.countRef_nameless _ hr hn)
  case tag =>
    intro active s n hn tag
    simp only [Recurrence.countRef_tag _ tag hn]
    exact Faithful.pure (one n)
  case unbound =>
    intro active s n hn tag found
    rw [Recurrence.countRef_unbound _ tag found hn]
    exact Faithful.throw (Recurrence.countRef_unbound _ tag found hn)
  case leaf =>
    intro active s n rule hn tag found leaf
    have found' : (g.plain mode).rules.lookup s = some rule := found
    simp only [Recurrence.countRef_leaf _ tag found leaf hn,
      Recurrence.countRef_leaf _ tag found' leaf hn]
    exact Faithful.pure (one n)
  case met =>
    intro active s n rule hn tag found compound met
    rw [Recurrence.countRef_active _ tag found compound met hn]
    exact Faithful.throw (Recurrence.countRef_active _ tag found compound met hn)
  case new =>
    intro active s n rule hn tag found compound new ih
    rw [Recurrence.countRef_new _ tag found compound new hn]
    simp only [plain_countRef_bound g mode tag (g.get?_of_lookup_rules found) compound hn]
    rw [rule.key_eq] at new ih ⊢
    exact Faithful.remember_type hn compound new ih
  case value =>
    intro active t n
    simp only [Recurrence.countBody_value]
    exact Faithful.pure (one n)
  case union =>
    intro active items n ih
    simp only [Recurrence.countBody_union]
    exact ih
  case free =>
    intro active items n leaves ih
    have leaves' : (g.plain mode).mode = .leaves := leaves
    simp only [Recurrence.countBody_product_leaves _ items leaves,
      Recurrence.countBody_product_leaves _ items leaves']
    exact ih
  case costly_zero =>
    intro active items nodes
    have nodes' : (g.plain mode).mode = .nodes := nodes
    simp only [Recurrence.countBody_product_nodes_zero _ items nodes,
      Recurrence.countBody_product_nodes_zero _ items nodes']
    exact Faithful.pure 0
  case costly =>
    intro active items n nodes hn ih
    have nodes' : (g.plain mode).mode = .nodes := nodes
    simp only [Recurrence.countBody_product_nodes _ items nodes hn,
      Recurrence.countBody_product_nodes _ items nodes' hn]
    exact Faithful.of_lt (Nat.sub_lt (Nat.pos_of_ne_zero hn) (by decide)) ih
  case empty =>
    intro active n
    simp only [Recurrence.countSequences_nil]
    exact Faithful.pure 0
  case single =>
    intro active r n ih
    simp only [Recurrence.countSequences_single]
    exact ih
  case short =>
    intro active head second rest n short
    simp only [Recurrence.countSequences_short _ _ _ _ short]
    exact Faithful.pure 0
  case long =>
    intro active head second rest n long ih
    have splits : ∀ other, (g.plain mode).countSequences other (head :: second :: rest) n =
        (g.plain mode).countSplits head second rest n 0 :=
      fun other => Recurrence.countSequences_long _ _ _ _ long
    rw [Recurrence.countSequences_long _ _ _ _ long]
    simp only [splits]
    rw [← splits []] at ih ⊢
    have below : n - 1 < n := by omega
    exact Faithful.remember_sequence below ih
  case fits =>
    intro head second rest n i fits ih₁ ih₂ ih₃
    simp only [Recurrence.countSplits_fits _ _ _ _ fits]
    refine Faithful.bind (Faithful.of_le (by omega) ih₁) fun a => ?_
    refine Faithful.bind (Faithful.of_le (by omega) ih₂) fun b => ?_
    exact Faithful.bind ih₃ fun others => Faithful.pure _
  case stop =>
    intro head second rest n i stop
    simp only [Recurrence.countSplits_stop _ _ _ _ stop]
    exact Faithful.pure 0
  case none =>
    intro active n
    simp only [Recurrence.countMembers_nil]
    exact Faithful.pure 0
  case some =>
    intro active r rest n ih₁ ih₂
    simp only [Recurrence.countMembers_cons]
    refine Faithful.bind ih₁ fun a => ?_
    exact Faithful.bind ih₂ fun b => Faithful.pure _

variable {g mode}

/-! ### Computations begun while nothing is being counted -/

/-- A computation gives an answer over every sound table, and leaves a sound table. -/
def Answers (g : Grammar) (mode : Accounting) {α : Type} (x : CountM α)
    (answer : Except Failure α) : Prop :=
  ∀ table, table.Sound g mode → ∃ table', x.on table = (answer, table') ∧ table'.Sound g mode

section answers

variable {α β : Type} {n : Nat}

/-- A result alone is its own answer. -/
theorem Answers.pure (a : α) : Answers g mode (Pure.pure a) (.ok a) :=
  fun table sound => ⟨table, rfl, sound⟩

/-- What follows an answer decides the answer of both. -/
theorem Answers.bind {x : CountM α} {f : α → CountM β} {a : α} {answer : Except Failure β}
    (hx : Answers g mode x (.ok a)) (hf : Answers g mode (f a) answer) :
    Answers g mode (x >>= f) answer := by
  intro table sound
  obtain ⟨table', hon, sound'⟩ := hx table sound
  rw [CountM.on_bind_ok hon]
  exact hf table' sound'

/-- A failure is the answer, whatever would have followed. -/
theorem Answers.bind_error {x : CountM α} {f : α → CountM β} {e : Failure}
    (hx : Answers g mode x (.error e)) : Answers g mode (x >>= f) (.error e) := by
  intro table sound
  obtain ⟨table', hon, sound'⟩ := hx table sound
  exact ⟨table', CountM.on_bind_error hon, sound'⟩

/-- What is faithful while nothing is being counted gives the answer that counting without a table
gives. -/
theorem Faithful.answers {x : CountM α} {plain : List String → Except Failure α}
    (h : Faithful g mode [] n x plain) : Answers g mode x (plain []) := by
  intro table sound
  have s := h table sound (Clear.nil table n)
  refine ⟨(x.on table).2, Prod.ext ?_ rfl, s.sound⟩
  rcases hr : (x.on table).1 with e | a
  · exact (s.failed e hr).symm
  · exact (s.found a hr [] (Clear.nil _ n)).symm

/-- Where counting succeeds although some types are being counted, it succeeds if fewer are. -/
theorem Faithful.ok_of_subset {x : CountM α} {plain : List String → Except Failure α}
    {active active' : List String} (h : Faithful g mode active n x plain)
    (types : ∀ key ∈ active, ∃ t : Ty, t.canonical = key) (fewer : active' ⊆ active) {a : α}
    (count : plain active = .ok a) : plain active' = .ok a := by
  have s := h .empty Table.sound_empty fun key hk => ⟨types key hk, Table.get?_empty key n⟩
  rcases hr : (x.on .empty).1 with e | b
  · rw [s.failed e hr] at count
    cases count
  · rw [s.found b hr active s.clear] at count
    rw [s.found b hr active' fun key hk => s.clear key (fewer hk)]
    exact count

/-- A reference has one count with a table and without. -/
theorem answers_countRef (g : Grammar) (mode : Accounting) (r : Ref) (n : Nat) :
    Answers g mode ((g.tabled mode).countRef [] r n) ((g.plain mode).countRef [] r n) :=
  ((tabled_faithful g mode).1 [] r n).answers

/-- Sequences for items have one count with a table and without. -/
theorem answers_countSequences (g : Grammar) (mode : Accounting) (items : List Ref) (n : Nat) :
    Answers g mode ((g.tabled mode).countSequences [] items n)
      ((g.plain mode).countSequences [] items n) :=
  ((tabled_faithful g mode).2.2.1 [] items n).answers

/-- Counts of types are found likewise, whether the grammar binds the type or not. -/
theorem exists_faithful_countRule (g : Grammar) (mode : Accounting) (rule : Rule) (n : Nat) :
    ∃ plain, plain [] = (g.plain mode).countRule rule n ∧
      Faithful g mode [] n ((g.tabled mode).countRule rule n) plain := by
  by_cases hn : n = 0
  · subst hn
    rw [Recurrence.countRule_zero, Recurrence.countRule_zero]
    exact ⟨_, rfl, .pure 0⟩
  · by_cases leaf : rule.type.isLeaf = true
    · rw [Recurrence.countRule_leaf _ leaf hn, Recurrence.countRule_leaf _ leaf hn]
      exact ⟨_, rfl, .pure (one n)⟩
    · rw [Recurrence.countRule_body _ leaf hn, Recurrence.countRule_body _ leaf hn, rule.key_eq]
      exact ⟨_, if_neg List.not_mem_nil, Faithful.remember_type hn leaf List.not_mem_nil
        ((tabled_faithful g mode).2.1 [rule.type.canonical] rule.type n)⟩

/-- A rule has one count with a table and without. -/
theorem answers_countRule (g : Grammar) (mode : Accounting) (rule : Rule) (n : Nat) :
    Answers g mode ((g.tabled mode).countRule rule n) ((g.plain mode).countRule rule n) := by
  obtain ⟨plain, same, faithful⟩ := exists_faithful_countRule g mode rule n
  rw [← same]
  exact faithful.answers

/-- A name or a tag has the count of the type it stands for, whether that is looked up by the name
or not. -/
theorem plain_countRule_of_bound {s : String} {t : Ty} (tag : ¬isTag s = true)
    (found : g.get? s = some t) (n : Nat) :
    (g.plain mode).countRule (.ofTy t) n = (g.plain mode).countRef [] (.name s) n := by
  have found' : (g.plain mode).rules.lookup s = some (.ofTy t) :=
    Grammar.lookup_rules_of_bound found
  by_cases hn : n = 0
  · subst hn
    rw [Recurrence.countRule_zero, Recurrence.countRef_zero]
  · by_cases leaf : t.isLeaf = true
    · rw [Recurrence.countRule_leaf _ leaf hn, Recurrence.countRef_leaf _ tag found' leaf hn]
    · rw [Recurrence.countRule_body _ leaf hn,
        Recurrence.countRef_new _ tag found' leaf List.not_mem_nil hn]

end answers

end sound

end TreeGrammar
