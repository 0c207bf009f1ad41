import TreeGrammar.Proofs.Sampling.Alike

/-!
# Marks in the table

Which types are being counted can be kept in the table itself: a mark is entered before a count is
found, the count takes its place, and if there is none the mark is taken out again. A mark that is
met is a cycle. Counting so runs alike with counting that is told which types are being counted: at
every moment the marks at a size are just those types, so the marks alone would tell.

* `Table.inProgress`, `Table.rememberMarked`, `Recurrence.marking`: counting with marks.
* `Table.Marked`: a table and the same table with marks.
* `marking_alike`: counting with marks runs alike, whatever is marked at greater sizes.
* `on_countRef_marked`: the marks alone decide where a cycle is met.
* `marking_countsAlike`: begun without marks, counting with marks leaves none.
-/

namespace TreeGrammar

namespace CountM

variable {α : Type}

/-- Equation lemma: a change of the table is made and does not fail. -/
theorem on_modify (f : Table → Table) (table : Table) :
    (modify f : CountM Unit).on table = (.ok (), f table) := rfl

/-- A failure is handled on the table that it leaves. -/
theorem on_tryCatch (x : CountM α) (handle : Failure → CountM α) (table : Table) :
    (tryCatch x handle).on table =
      match x.on table with
      | (.ok a, table') => (.ok a, table')
      | (.error e, table') => (handle e).on table' := by
  have run : (tryCatch x handle).run = x.run >>= fun o =>
      Except.casesOn (motive := fun _ => StateM Table (Except Failure α)) o
        (fun e => (handle e).run) fun a => pure (.ok a) := by
    change (ExceptT.tryCatch x handle).run = _
    rw [ExceptT.tryCatch, ExceptT.run_mk]
    congr 1
    funext o
    rcases o with e | a
    · rfl
    · rfl
  rw [on, run, StateT.run_bind]
  change StateT.run (Except.casesOn (motive := fun _ => StateM Table (Except Failure α))
    (x.on table).1 (fun e => (handle e).run) fun a => pure (.ok a)) (x.on table).2 = _
  rcases x.on table with ⟨e | a, table'⟩
  · rfl
  · rfl

end CountM

/-! ### Tables with marks -/

namespace Table

/-- The mark of a count that is being found. Counts are never negative. -/
def inProgress : Int := -1

/-- The table without the entry for a key and a size. -/
def erase (t : Table) (key : String) (size : Int) : Table :=
  ⟨t.counts.erase (key, size)⟩

/-- Nothing is found under the key and the size that were erased, and what is kept under others
stays. -/
theorem get?_erase (t : Table) (key key' : String) (size size' : Int) :
    (t.erase key size).get? key' size' =
      if key = key' ∧ size = size' then none else t.get? key' size' := by
  simp [get?, erase, Std.HashMap.getElem?_erase]

/-- The count kept for a key and a size. If there is none, it is found behind a mark, and kept in
place of the mark; a failure takes the mark out and goes on. A mark that is met is a failure. -/
def rememberMarked (key : String) (size : Nat) (find : Unit → CountM Int) : CountM Int := do
  match (← get).get? key size with
  | some count =>
    if count = inProgress then throw (.inconsistent (.cycle key size)) else return count
  | none =>
    modify (·.insert key size inProgress)
    let count ← tryCatch (find ()) fun e => do
      modify (·.erase key size)
      throw e
    modify (·.insert key size count)
    return count

section

variable {key : String} {n : Nat} {find : Unit → CountM Int} {t t' : Table} {v : Int}

/-- Equation lemma: a count that is kept is the answer. -/
theorem on_rememberMarked_kept (kept : t.get? key n = some v) (count : v ≠ inProgress) :
    (rememberMarked key n find).on t = (.ok v, t) := by
  unfold rememberMarked
  rw [CountM.on_bind]
  simp only [show (get : CountM Table).on t = (.ok t, t) from rfl, kept, if_neg count]
  rfl

/-- Equation lemma: a mark that is met is a cycle, and it stays for the one who set it. -/
theorem on_rememberMarked_mark (mark : t.get? key n = some inProgress) :
    (rememberMarked key n find).on t = (.error (.inconsistent (.cycle key n)), t) := by
  unfold rememberMarked
  rw [CountM.on_bind]
  simp only [show (get : CountM Table).on t = (.ok t, t) from rfl, mark, if_pos]
  rfl

/-- Equation lemma: a new count is found behind a mark, which makes way for the count or goes with
the failure. -/
theorem on_rememberMarked_new (new : t.get? key n = none) :
    (rememberMarked key n find).on t =
      match (find ()).on (t.insert key n inProgress) with
      | (.ok v, u) => (.ok v, u.insert key n v)
      | (.error e, u) => (.error e, u.erase key n) := by
  unfold rememberMarked
  rw [CountM.on_bind]
  simp only [show (get : CountM Table).on t = (.ok t, t) from rfl, new]
  rw [CountM.on_bind_ok (CountM.on_modify _ t), CountM.on_bind, CountM.on_tryCatch]
  rcases (find ()).on (t.insert key n inProgress) with ⟨e | v, u⟩
  · rfl
  · rfl

end

/-- A table of counts and the same table with marks, which stand where there is no count. -/
structure Marked (marks : List (String × Int)) (t t' : Table) : Prop where
  nonneg : ∀ key size v, t.get? key size = some v → 0 ≤ v
  new : ∀ m ∈ marks, t.get? m.1 m.2 = none
  shows : ∀ key size,
    t'.get? key size = if (key, size) ∈ marks then some inProgress else t.get? key size

/-- Elsewhere the marks are those that there were. -/
theorem mem_marks_of_ne {marks : List (String × Int)} {key key' : String} {size size' : Int}
    (other : ¬(key = key' ∧ size = size')) :
    (key', size') ∈ (key, size) :: marks ↔ (key', size') ∈ marks := by
  rw [List.mem_cons, or_iff_right]
  rintro ⟨⟩
  exact other ⟨rfl, rfl⟩

namespace Marked

variable {marks : List (String × Int)} {t t' : Table} {key : String} {size v : Int}

/-- One more mark is entered. -/
theorem mark (h : Marked marks t t') (new : t.get? key size = none) :
    Marked ((key, size) :: marks) t (t'.insert key size inProgress) := by
  refine ⟨h.nonneg, List.forall_mem_cons.2 ⟨new, h.new⟩, fun key' size' => ?_⟩
  rw [get?_insert, h.shows]
  by_cases same : key = key' ∧ size = size'
  · obtain ⟨rfl, rfl⟩ := same
    rw [if_pos ⟨rfl, rfl⟩, if_pos List.mem_cons_self]
  · simp only [if_neg same, mem_marks_of_ne same]

/-- A count takes the place of its mark. -/
theorem count (h : Marked ((key, size) :: marks) t t') (once : (key, size) ∉ marks)
    (nonneg : 0 ≤ v) : Marked marks (t.insert key size v) (t'.insert key size v) := by
  refine ⟨fun key' size' v' kept => ?_, fun m hm => ?_, fun key' size' => ?_⟩
  · rw [get?_insert] at kept
    by_cases same : key = key' ∧ size = size'
    · rw [if_pos same] at kept
      exact Option.some.inj kept ▸ nonneg
    · rw [if_neg same] at kept
      exact h.nonneg key' size' v' kept
  · rw [get?_insert, if_neg]
    · exact h.new m (List.mem_cons_of_mem _ hm)
    · rintro ⟨rfl, rfl⟩
      exact once hm
  · rw [get?_insert, get?_insert, h.shows]
    by_cases same : key = key' ∧ size = size'
    · obtain ⟨rfl, rfl⟩ := same
      rw [if_pos ⟨rfl, rfl⟩, if_neg once, if_pos ⟨rfl, rfl⟩]
    · simp only [if_neg same, mem_marks_of_ne same]

/-- A mark is taken out. -/
theorem unmark (h : Marked ((key, size) :: marks) t t') (once : (key, size) ∉ marks) :
    Marked marks t (t'.erase key size) := by
  refine ⟨h.nonneg, fun m hm => h.new m (List.mem_cons_of_mem _ hm), fun key' size' => ?_⟩
  rw [get?_erase, h.shows]
  by_cases same : key = key' ∧ size = size'
  · obtain ⟨rfl, rfl⟩ := same
    rw [if_pos ⟨rfl, rfl⟩, if_neg once]
    exact (h.new _ List.mem_cons_self).symm
  · simp only [if_neg same, mem_marks_of_ne same]

/-- Keeping counts behind marks runs alike with keeping counts. -/
theorem remember {n : Nat} {find find' : CountM Int} (once : (key, (n : Int)) ∉ marks)
    (h : CountM.Alike (Marked ((key, (n : Int)) :: marks)) (0 ≤ ·) find find') :
    CountM.Alike (Marked marks) (0 ≤ ·) (Table.remember key n fun _ => find)
      (rememberMarked key n fun _ => find') := by
  intro t t' marked
  rcases kept : t.get? key n with _ | v
  · have kept' : t'.get? key n = none := by rw [marked.shows, if_neg once, kept]
    obtain ⟨same, marked', result⟩ := h t (t'.insert key n inProgress) (marked.mark kept)
    rw [on_rememberMarked_new kept']
    rcases found : find.on t with ⟨e | v, u⟩
    · rw [found] at same marked'
      rw [on_remember_error kept found]
      rcases found' : find'.on (t'.insert key n inProgress) with ⟨o, u'⟩
      rw [found'] at same marked'
      obtain rfl : .error e = o := same
      exact ⟨rfl, marked'.unmark once, nofun⟩
    · rw [found] at same marked' result
      rw [on_remember_ok kept found]
      rcases found' : find'.on (t'.insert key n inProgress) with ⟨o, u'⟩
      rw [found'] at same marked'
      obtain rfl : .ok v = o := same
      have nonneg := result v rfl
      refine ⟨rfl, marked'.count once nonneg, fun a ha => ?_⟩
      exact Except.ok.inj ha ▸ nonneg
  · have kept' : t'.get? key n = some v := by rw [marked.shows, if_neg once, kept]
    have nonneg := marked.nonneg key n v kept
    have count : v ≠ inProgress := by
      unfold inProgress
      omega
    rw [on_remember_kept kept, on_rememberMarked_kept kept' count]
    refine ⟨rfl, marked, fun a ha => ?_⟩
    exact Except.ok.inj ha ▸ nonneg

end Marked

end Table

/-! ### Counting with marks -/

/-- The recurrence with a table that holds marks. -/
def Recurrence.marking (rules : Rules) (mode : Accounting) : Recurrence CountM :=
  ⟨rules, mode, Table.rememberMarked⟩

/-- The marks are at sizes from `n` on, and those at `n` are the types in `active`. -/
structure Fits (marks : List (String × Int)) (active : List String) (n : Nat) : Prop where
  here : ∀ key, (key, (n : Int)) ∈ marks ↔ key ∈ active
  above : ∀ m ∈ marks, (n : Int) ≤ m.2
  types : ∀ key ∈ active, ∃ t : Ty, t.canonical = key

namespace Fits

variable {marks : List (String × Int)} {active : List String} {n : Nat}

/-- Where there are no marks nothing is being counted. -/
theorem nil (n : Nat) : Fits [] [] n :=
  ⟨fun _ => by simp, nofun, nofun⟩

/-- A type is marked and counted. -/
theorem enter (fits : Fits marks active n) (t : Ty) :
    Fits ((t.canonical, (n : Int)) :: marks) (t.canonical :: active) n := by
  refine ⟨fun key => ?_, List.forall_mem_cons.2 ⟨le_rfl, fits.above⟩,
    List.forall_mem_cons.2 ⟨⟨t, rfl⟩, fits.types⟩⟩
  rw [List.mem_cons, List.mem_cons, fits.here, Prod.mk.injEq, and_iff_left rfl]

/-- Nothing is marked at a smaller size. -/
theorem smaller {k : Nat} (above : ∀ m ∈ marks, (n : Int) ≤ m.2) (lt : k < n) :
    Fits marks [] k := by
  refine ⟨fun key => ⟨fun marked => ?_, fun none => absurd none List.not_mem_nil⟩, fun m hm => ?_,
    nofun⟩
  · have := above _ marked
    simp only at this
    omega
  · have := above m hm
    omega

end Fits

/-- The count of a leaf is not negative. -/
theorem one_nonneg (n : Nat) : 0 ≤ one n := by
  unfold one
  split <;> decide

section

variable (rules : Rules) (mode : Accounting)

/-- Counting with marks runs alike. The induction is over the recurrence; the sequences for several
items are marked at their size while smaller sizes are counted. -/
theorem marking_alike :
    (∀ active r n, ∀ marks, Fits marks active n →
      CountM.Alike (Table.Marked marks) (0 ≤ ·)
        ((Recurrence.tabled rules mode).countRef active r n)
        ((Recurrence.marking rules mode).countRef active r n)) ∧
    (∀ active t n, ∀ marks, Fits marks active n →
      CountM.Alike (Table.Marked marks) (0 ≤ ·)
        ((Recurrence.tabled rules mode).countBody active t n)
        ((Recurrence.marking rules mode).countBody active t n)) ∧
    (∀ active items n, ∀ marks, Fits marks active n →
      CountM.Alike (Table.Marked marks) (0 ≤ ·)
        ((Recurrence.tabled rules mode).countSequences active items n)
        ((Recurrence.marking rules mode).countSequences active items n)) ∧
    (∀ head second rest n i, ∀ marks, (∀ m ∈ marks, ((n : Nat) : Int) ≤ m.2) →
      CountM.Alike (Table.Marked marks) (0 ≤ ·)
        ((Recurrence.tabled rules mode).countSplits head second rest n i)
        ((Recurrence.marking rules mode).countSplits head second rest n i)) ∧
    (∀ active items n, ∀ marks, Fits marks active n →
      CountM.Alike (Table.Marked marks) (0 ≤ ·)
        ((Recurrence.tabled rules mode).countMembers active items n)
        ((Recurrence.marking rules mode).countMembers active items n)) := by
  apply Recurrence.induction (Recurrence.tabled rules mode)
  case zero =>
    intro active r marks fits
    rw [Recurrence.countRef_zero, Recurrence.countRef_zero]
    exact .pure le_rfl
  case nameless =>
    intro active r n hn nameless marks fits
    rw [Recurrence.countRef_nameless _ nameless hn, Recurrence.countRef_nameless _ nameless hn]
    exact .throw _
  case tag =>
    intro active s n hn tag marks fits
    rw [Recurrence.countRef_tag _ tag hn, Recurrence.countRef_tag _ tag hn]
    exact .pure (one_nonneg n)
  case unbound =>
    intro active s n hn tag found marks fits
    have found' : (Recurrence.marking rules mode).rules.lookup s = none := found
    rw [Recurrence.countRef_unbound _ tag found hn, Recurrence.countRef_unbound _ tag found' hn]
    exact .throw _
  case leaf =>
    intro active s n rule hn tag found leaf marks fits
    have found' : (Recurrence.marking rules mode).rules.lookup s = some rule := found
    rw [Recurrence.countRef_leaf _ tag found leaf hn,
      Recurrence.countRef_leaf _ tag found' leaf hn]
    exact .pure (one_nonneg n)
  case met =>
    intro active s n rule hn tag found compound met marks fits
    have found' : (Recurrence.marking rules mode).rules.lookup s = some rule := found
    rw [Recurrence.countRef_active _ tag found compound met hn,
      Recurrence.countRef_active _ tag found' compound met hn]
    exact .throw _
  case new =>
    intro active s n rule hn tag found compound new ih marks fits
    have found' : (Recurrence.marking rules mode).rules.lookup s = some rule := found
    rw [Recurrence.countRef_new _ tag found compound new hn,
      Recurrence.countRef_new _ tag found' compound new hn]
    rw [rule.key_eq] at new ih ⊢
    exact Table.Marked.remember (fun marked => new ((fits.here _).1 marked))
      (ih _ (fits.enter rule.type))
  case value =>
    intro active t n marks fits
    rw [Recurrence.countBody_value, Recurrence.countBody_value]
    exact .pure (one_nonneg n)
  case union =>
    intro active items n ih marks fits
    rw [Recurrence.countBody_union, Recurrence.countBody_union]
    exact ih marks fits
  case free =>
    intro active items n leaves ih marks fits
    have leaves' : (Recurrence.marking rules mode).mode = .leaves := leaves
    rw [Recurrence.countBody_product_leaves _ items leaves,
      Recurrence.countBody_product_leaves _ items leaves']
    exact ih marks fits
  case costly_zero =>
    intro active items nodes marks fits
    have nodes' : (Recurrence.marking rules mode).mode = .nodes := nodes
    rw [Recurrence.countBody_product_nodes_zero _ items nodes,
      Recurrence.countBody_product_nodes_zero _ items nodes']
    exact .pure le_rfl
  case costly =>
    intro active items n nodes hn ih marks fits
    have nodes' : (Recurrence.marking rules mode).mode = .nodes := nodes
    rw [Recurrence.countBody_product_nodes _ items nodes hn,
      Recurrence.countBody_product_nodes _ items nodes' hn]
    exact ih marks (Fits.smaller fits.above (by omega))
  case empty =>
    intro active n marks fits
    rw [Recurrence.countSequences_nil, Recurrence.countSequences_nil]
    exact .pure le_rfl
  case single =>
    intro active r n ih marks fits
    rw [Recurrence.countSequences_single, Recurrence.countSequences_single]
    exact ih marks fits
  case short =>
    intro active head second rest n short marks fits
    rw [Recurrence.countSequences_short _ _ _ _ short,
      Recurrence.countSequences_short _ _ _ _ short]
    exact .pure le_rfl
  case long =>
    intro active head second rest n long ih marks fits
    rw [Recurrence.countSequences_long _ _ _ _ long, Recurrence.countSequences_long _ _ _ _ long]
    refine Table.Marked.remember (fun marked => ?_) (ih _ ?_)
    · obtain ⟨t, form⟩ := fits.types _ ((fits.here _).1 marked)
      exact sequenceKey_ne_canonical _ t form.symm
    · exact List.forall_mem_cons.2 ⟨le_rfl, fits.above⟩
  case fits =>
    intro head second rest n i room ih₁ ih₂ ih₃ marks above
    rw [Recurrence.countSplits_fits _ _ _ _ room, Recurrence.countSplits_fits _ _ _ _ room]
    refine (ih₁ marks (Fits.smaller above (by omega))).bind fun a ha => ?_
    refine (ih₂ marks (Fits.smaller above (by omega))).bind fun b hb => ?_
    refine (ih₃ marks above).bind fun others ho => .pure ?_
    exact Int.add_nonneg (Int.mul_nonneg ha hb) ho
  case stop =>
    intro head second rest n i stop marks above
    rw [Recurrence.countSplits_stop _ _ _ _ stop, Recurrence.countSplits_stop _ _ _ _ stop]
    exact .pure le_rfl
  case none =>
    intro active n marks fits
    rw [Recurrence.countMembers_nil, Recurrence.countMembers_nil]
    exact .pure le_rfl
  case some =>
    intro active r rest n ih₁ ih₂ marks fits
    rw [Recurrence.countMembers_cons, Recurrence.countMembers_cons]
    refine (ih₁ marks fits).bind fun a ha => ?_
    refine (ih₂ marks fits).bind fun b hb => .pure ?_
    exact Int.add_nonneg ha hb

variable {rules mode}

/-- The marks alone decide: a type that is being counted is met at its mark, and any other type is
counted behind a mark of its own. The list of types that are being counted is never asked. -/
theorem on_countRef_marked {marks : List (String × Int)} {active : List String} {n : Nat}
    (fits : Fits marks active n) {t t' : Table} (marked : Table.Marked marks t t') {s : String}
    {rule : Rule} (tag : ¬isTag s = true) (found : rules.lookup s = some rule)
    (compound : ¬rule.type.isLeaf = true) (hn : n ≠ 0) :
    ((Recurrence.marking rules mode).countRef active (.name s) n).on t' =
      (Table.rememberMarked rule.key n fun _ =>
        (Recurrence.marking rules mode).countBody (rule.key :: active) rule.type n).on t' := by
  by_cases met : rule.key ∈ active
  · have mark : t'.get? rule.key n = some Table.inProgress := by
      rw [marked.shows, if_pos ((fits.here _).2 met)]
    rw [Recurrence.countRef_active _ tag found compound met hn, Table.on_rememberMarked_mark mark]
    rfl
  · rw [Recurrence.countRef_new _ tag found compound met hn]
    rfl

/-- Begun without marks, counting with marks runs alike and leaves no marks. -/
theorem marking_countsAlike :
    Recurrence.CountsAlike (Table.Marked []) (.tabled rules mode) (.marking rules mode) := by
  obtain ⟨ref, body, sequences, -, -⟩ := marking_alike rules mode
  refine ⟨rfl, rfl, fun r n => (ref [] r n [] (Fits.nil n)).mono fun _ _ => trivial,
    fun items n => (sequences [] items n [] (Fits.nil n)).mono fun _ _ => trivial,
    fun rule n => ?_⟩
  by_cases hn : n = 0
  · subst hn
    rw [Recurrence.countRule_zero, Recurrence.countRule_zero]
    exact .pure trivial
  · by_cases leaf : rule.type.isLeaf = true
    · rw [Recurrence.countRule_leaf _ leaf hn, Recurrence.countRule_leaf _ leaf hn]
      exact .pure trivial
    · rw [Recurrence.countRule_body _ leaf hn, Recurrence.countRule_body _ leaf hn, rule.key_eq]
      have alike := Table.Marked.remember List.not_mem_nil
        (body [rule.type.canonical] rule.type n _ ((Fits.nil n).enter rule.type))
      exact alike.mono fun _ _ => trivial

end

end TreeGrammar
