import TreeGrammar.Proofs.Samplers.Marks

/-!
# How deep counting goes

Counting can be written as functions that call one another and know of each other through marks in
the table only. Nothing in their arguments need become smaller from call to call, since a name may
stand for itself. Yet the calls never go deeper than some bound: the recurrence, which is told what
is being counted, meets the same marks, and it ends.

* `Job`, `Job.step`, `Job.run`: counting by calls, up to a depth.
* `Settles`: beyond some depth a computation has an outcome, whatever would be said of too deep a
  call.
* `run_settles`: counting by calls settles where the recurrence with marks ends.
-/

namespace TreeGrammar

/-- A count that is called for. -/
inductive Job where
  | ref (r : Ref) (n : Nat)
  | type (rule : Rule) (n : Nat)
  | sequences (items : List Ref) (n : Nat)

namespace Job

/-- The sum of counts that are found one after the other. -/
def total : List (CountM Int) → CountM Int
  | [] => pure 0
  | x :: rest => do
    let a ← x
    let b ← total rest
    pure (a + b)

/-- The number of trees of a product or a union, by calls. -/
def body (mode : Accounting) (call : Job → CountM Int) (t : Ty) (n : Nat) : CountM Int :=
  match t with
  | .value _ => pure (one n)
  | .union items => total (items.map fun r => call (.ref r n))
  | .product items =>
    match mode with
    | .leaves => call (.sequences items n)
    | .nodes => call (.sequences items (n - 1))

/-- The number of sequences for at least two items in which the first tree has a size greater than
`i`, by calls. -/
def splits (call : Job → CountM Int) (head second : Ref) (rest : List Ref) (n i : Nat) :
    CountM Int :=
  total ((List.range' (i + 1) (n - (rest.length + 1) - i)).map fun j => do
    let a ← call (.ref head j)
    let b ← call (.sequences (second :: rest) (n - j))
    pure (a * b))

/-- What is done when a count is called for. Other counts are called for in turn, and marks in the
table are all that is known of the counts that are being found. -/
def step (rules : Rules) (mode : Accounting) (call : Job → CountM Int) : Job → CountM Int
  | ref r n =>
    if n = 0 then pure 0
    else
      match r with
      | .inline t => throw (.undefinedName t.canonical none)
      | .deferred b => throw (.undefinedName b.mark none)
      | .name s =>
        if isTag s then pure (one n)
        else
          match rules.lookup s with
          | none => throw (.undefinedName s none)
          | some rule => call (.type rule n)
  | type rule n =>
    if n = 0 then pure 0
    else if rule.type.isLeaf then pure (one n)
    else Table.rememberMarked rule.key n fun _ => body mode call rule.type n
  | sequences [] _ => pure 0
  | sequences [r] n => call (.ref r n)
  | sequences (head :: second :: rest) n =>
    if n < rest.length + 2 then pure 0
    else
      Table.rememberMarked (sequenceKey (head :: second :: rest)) n
        fun _ => splits call head second rest n 0

/-- Counting by calls up to a depth; a deeper call fails with `exceeded`. -/
def run (rules : Rules) (mode : Accounting) (exceeded : Failure) : (depth : Nat) → Job → CountM Int
  | 0, _ => throw exceeded
  | depth + 1, job => step rules mode (run rules mode exceeded depth) job

section

variable {rules : Rules} {mode : Accounting} (call : Job → CountM Int) {n : Nat}

/-- Equation lemma: there is nothing of size zero, and nothing is called for. -/
theorem step_ref_zero (r : Ref) : step rules mode call (.ref r 0) = pure 0 := by
  rw [step.eq_def]
  exact if_pos rfl

/-- Equation lemma: whatever is no name is bound nowhere. -/
theorem step_ref_nameless {r : Ref} (nameless : ∀ s, r ≠ .name s) (hn : n ≠ 0) :
    step rules mode call (.ref r n) = throw (.undefinedName r.canonical none) := by
  rcases r with s | t | b
  · exact absurd rfl (nameless s)
  · rw [step, if_neg hn, Ref.canonical]
  · rw [step, if_neg hn, Ref.canonical]

/-- Equation lemma: a tag is a leaf. -/
theorem step_ref_tag {s : String} (tag : isTag s = true) (hn : n ≠ 0) :
    step rules mode call (.ref (.name s) n) = pure (one n) := by
  rw [step, if_neg hn]
  exact if_pos tag

/-- Equation lemma: a name without a rule fails. -/
theorem step_ref_unbound {s : String} (tag : ¬isTag s = true) (found : rules.lookup s = none)
    (hn : n ≠ 0) : step rules mode call (.ref (.name s) n) = throw (.undefinedName s none) := by
  rw [step, if_neg hn]
  simp only [if_neg tag, found]

/-- Equation lemma: for a name its rule is called for. -/
theorem step_ref_bound {s : String} {rule : Rule} (tag : ¬isTag s = true)
    (found : rules.lookup s = some rule) (hn : n ≠ 0) :
    step rules mode call (.ref (.name s) n) = call (.type rule n) := by
  rw [step, if_neg hn]
  simp only [if_neg tag, found]

/-- Equation lemma: there is nothing of size zero. -/
theorem step_type_zero (rule : Rule) : step rules mode call (.type rule 0) = pure 0 := by
  rw [step, if_pos rfl]

/-- Equation lemma: the rule of a leaf is counted as one. -/
theorem step_type_leaf {rule : Rule} (leaf : rule.type.isLeaf = true) (hn : n ≠ 0) :
    step rules mode call (.type rule n) = pure (one n) := by
  rw [step, if_neg hn, if_pos leaf]

/-- Equation lemma: the count of a rule is found behind a mark. -/
theorem step_type_body {rule : Rule} (compound : ¬rule.type.isLeaf = true) (hn : n ≠ 0) :
    step rules mode call (.type rule n) =
      Table.rememberMarked rule.key n fun _ => body mode call rule.type n := by
  rw [step, if_neg hn, if_neg compound]

/-- The sizes that the first tree may have are tried one after the other. -/
theorem splits_fits {head second : Ref} {rest : List Ref} {i : Nat}
    (fits : i + 1 + (rest.length + 1) ≤ n) :
    splits call head second rest n i = (do
      let a ← call (.ref head (i + 1))
      let b ← call (.sequences (second :: rest) (n - (i + 1)))
      let others ← splits call head second rest n (i + 1)
      pure (a * b + others)) := by
  have range : List.range' (i + 1) (n - (rest.length + 1) - i) =
      (i + 1) :: List.range' (i + 1 + 1) (n - (rest.length + 1) - (i + 1)) := by
    rw [show n - (rest.length + 1) - i = n - (rest.length + 1) - (i + 1) + 1 by omega,
      List.range'_succ]
  rw [splits, range, List.map_cons, total]
  simp only [bind_assoc, pure_bind]
  rfl

/-- Equation lemma: there are no splits where the others do not fit behind the first. -/
theorem splits_stop {head second : Ref} {rest : List Ref} {i : Nat}
    (stop : ¬i + 1 + (rest.length + 1) ≤ n) : splits call head second rest n i = pure 0 := by
  rw [splits, show n - (rest.length + 1) - i = 0 by omega, List.range'_zero, List.map_nil, total]

end

end Job

/-! ### Depths that are enough -/

section

variable {α β : Type} {t u : Table}

/-- From some depth on a computation has an outcome, whatever failure stands for too deep a call: no
call goes deeper. -/
def Settles (x : Failure → Nat → CountM α) (t : Table) (outcome : Except Failure α × Table) :
    Prop :=
  ∃ least, ∀ depth, least ≤ depth → ∀ exceeded, (x exceeded depth).on t = outcome

namespace Settles

/-- What does not depend on the depth settles at once. -/
theorem const (x : CountM α) (t : Table) : Settles (fun _ _ => x) t (x.on t) :=
  ⟨0, fun _ _ _ => rfl⟩

/-- A computation that goes on after another settles if both do. -/
theorem bind {x : Failure → Nat → CountM α} {y : CountM α} {f : Failure → Nat → α → CountM β}
    {f' : α → CountM β} (hx : Settles x t (y.on t))
    (hf : ∀ a u, y.on t = (.ok a, u) → Settles (fun e d => f e d a) u ((f' a).on u)) :
    Settles (fun e d => x e d >>= f e d) t ((y >>= f').on t) := by
  obtain ⟨least, hx⟩ := hx
  rcases run : y.on t with ⟨e | a, u⟩
  · refine ⟨least, fun depth le exceeded => ?_⟩
    rw [CountM.on_bind_error ((hx depth le exceeded).trans run), CountM.on_bind_error run]
  · obtain ⟨least', hf⟩ := hf a u run
    refine ⟨max least least', fun depth le exceeded => ?_⟩
    rw [CountM.on_bind_ok ((hx depth (le_of_max_le_left le) exceeded).trans run),
      CountM.on_bind_ok run]
    exact hf depth (le_of_max_le_right le) exceeded

/-- A count settles behind its mark, if it settles where there is none yet. -/
theorem remember {key : String} {n : Nat} {find : Failure → Nat → CountM Int} {find' : CountM Int}
    (h : t.get? key n = none → Settles find (t.insert key n Table.inProgress)
      (find'.on (t.insert key n Table.inProgress))) :
    Settles (fun e d => Table.rememberMarked key n fun _ => find e d) t
      ((Table.rememberMarked key n fun _ => find').on t) := by
  rcases entry : t.get? key n with _ | v
  · obtain ⟨least, h⟩ := h entry
    refine ⟨least, fun depth le exceeded => ?_⟩
    rw [Table.on_rememberMarked_new entry, Table.on_rememberMarked_new entry,
      h depth le exceeded]
  · refine ⟨0, fun _ _ _ => ?_⟩
    by_cases mark : v = Table.inProgress
    · rw [mark] at entry
      rw [Table.on_rememberMarked_mark entry, Table.on_rememberMarked_mark entry]
    · rw [Table.on_rememberMarked_kept entry mark, Table.on_rememberMarked_kept entry mark]

/-- One call deeper. -/
theorem call {rules : Rules} {mode : Accounting} {job : Job} {outcome : Except Failure Int × Table}
    (h : Settles (fun e d => Job.step rules mode (Job.run rules mode e d) job) t outcome) :
    Settles (fun e d => Job.run rules mode e d job) t outcome := by
  obtain ⟨least, h⟩ := h
  refine ⟨least + 1, fun depth le exceeded => ?_⟩
  cases depth with
  | zero => omega
  | succ depth => exact h depth (Nat.le_of_succ_le_succ le) exceeded

end Settles

/-- A computation settles as another one does, from every table that holds such marks. -/
def SettlesAs (marks : List (String × Int)) (x : Failure → Nat → CountM α) (y : CountM α) : Prop :=
  ∀ t, (∃ t₀, Table.Marked marks t₀ t) → Settles x t (y.on t)

namespace SettlesAs

variable {marks : List (String × Int)}

/-- What does not depend on the depth settles as itself. -/
theorem const (x : CountM α) : SettlesAs marks (fun _ _ => x) x :=
  fun t _ => Settles.const x t

/-- Where a computation settles and so does what follows it, both together settle. What follows is
reached from tables with the same marks. -/
theorem bind {Q : α → Prop} {x : Failure → Nat → CountM α} {y z : CountM α}
    {f : Failure → Nat → α → CountM β} {f' : α → CountM β} (hx : SettlesAs marks x y)
    (alike : CountM.Alike (Table.Marked marks) Q z y)
    (hf : ∀ a, SettlesAs marks (fun e d => f e d a) (f' a)) :
    SettlesAs marks (fun e d => x e d >>= f e d) (y >>= f') := by
  intro t behind
  refine (hx t behind).bind fun a u run => hf a u ?_
  obtain ⟨t₀, marked⟩ := behind
  have marked' := (alike t₀ t marked).2.1
  rw [run] at marked'
  exact ⟨_, marked'⟩

/-- A count that is found behind a mark settles if finding it does, once the mark is set. -/
theorem remember {key : String} {n : Nat} {find : Failure → Nat → CountM Int} {find' : CountM Int}
    (h : (key, (n : Int)) ∉ marks → SettlesAs ((key, (n : Int)) :: marks) find find') :
    SettlesAs marks (fun e d => Table.rememberMarked key n fun _ => find e d)
      (Table.rememberMarked key n fun _ => find') := by
  intro t behind
  obtain ⟨t₀, marked⟩ := behind
  refine Settles.remember fun new => ?_
  have shows := marked.shows key n
  rw [new] at shows
  by_cases mark : (key, (n : Int)) ∈ marks
  · rw [if_pos mark] at shows
    cases shows
  · rw [if_neg mark] at shows
    exact h mark _ ⟨t₀, marked.mark shows.symm⟩

/-- A call goes one deeper than what it does. -/
theorem call {rules : Rules} {mode : Accounting} {job : Job} {y : CountM Int}
    (h : SettlesAs marks (fun e d => Job.step rules mode (Job.run rules mode e d) job) y) :
    SettlesAs marks (fun e d => Job.run rules mode e d job) y :=
  fun t behind => (h t behind).call

end SettlesAs

end

/-! ### Counting by calls -/

section

variable (rules : Rules) (mode : Accounting)

/-- Counting by calls settles where the recurrence with marks ends. The induction is over the
recurrence, so a bound on the depth is found for every way a count is found. -/
theorem run_settles :
    (∀ active r n, ∀ marks, Fits marks active n →
      SettlesAs marks (fun e d => Job.run rules mode e d (.ref r n))
        ((Recurrence.marking rules mode).countRef active r n)) ∧
    (∀ active t n, n ≠ 0 → ∀ marks, Fits marks active n →
      SettlesAs marks (fun e d => Job.body mode (Job.run rules mode e d) t n)
        ((Recurrence.marking rules mode).countBody active t n)) ∧
    (∀ active items n, ∀ marks, Fits marks active n →
      SettlesAs marks (fun e d => Job.run rules mode e d (.sequences items n))
        ((Recurrence.marking rules mode).countSequences active items n)) ∧
    (∀ head second rest n i, ∀ marks, (∀ m ∈ marks, ((n : Nat) : Int) ≤ m.2) →
      SettlesAs marks (fun e d => Job.splits (Job.run rules mode e d) head second rest n i)
        ((Recurrence.marking rules mode).countSplits head second rest n i)) ∧
    (∀ active items n, ∀ marks, Fits marks active n →
      SettlesAs marks
        (fun e d => Job.total (items.map fun r => Job.run rules mode e d (.ref r n)))
        ((Recurrence.marking rules mode).countMembers active items n)) := by
  obtain ⟨ref_alike, -, sequences_alike, splits_alike, members_alike⟩ := marking_alike rules mode
  have bound : ∀ active s n rule, n ≠ 0 → ¬isTag s = true → rules.lookup s = some rule →
      ¬rule.type.isLeaf = true → (rule.key ∉ active → ∀ marks, Fits marks (rule.key :: active) n →
        SettlesAs marks (fun e d => Job.body mode (Job.run rules mode e d) rule.type n)
          ((Recurrence.marking rules mode).countBody (rule.key :: active) rule.type n)) →
      ∀ marks, Fits marks active n →
        SettlesAs marks (fun e d => Job.run rules mode e d (.ref (.name s) n))
          ((Recurrence.marking rules mode).countRef active (.name s) n) := by
    intro active s n rule hn tag found compound inner marks fits
    -- two calls: one for the name, and from it one for the rule
    refine SettlesAs.call ?_
    simp only [Job.step_ref_bound _ tag found hn]
    refine SettlesAs.call ?_
    simp only [Job.step_type_body _ compound hn]
    rintro t ⟨t₀, marked⟩
    rw [on_countRef_marked fits marked tag found compound hn]
    refine SettlesAs.remember (fun new => ?_) t ⟨t₀, marked⟩
    refine inner (fun met => new ((fits.here _).2 met)) _ ?_
    rw [rule.key_eq]
    exact fits.enter rule.type
  apply Recurrence.induction (Recurrence.marking rules mode)
  case zero =>
    intro active r marks fits
    refine SettlesAs.call ?_
    simp only [Job.step_ref_zero, Recurrence.countRef_zero]
    exact .const _
  case nameless =>
    intro active r n hn nameless marks fits
    refine SettlesAs.call ?_
    simp only [Job.step_ref_nameless _ nameless hn, Recurrence.countRef_nameless _ nameless hn]
    exact .const _
  case tag =>
    intro active s n hn tag marks fits
    refine SettlesAs.call ?_
    simp only [Job.step_ref_tag _ tag hn, Recurrence.countRef_tag _ tag hn]
    exact .const _
  case unbound =>
    intro active s n hn tag found marks fits
    have found' : rules.lookup s = none := found
    refine SettlesAs.call ?_
    simp only [Job.step_ref_unbound _ tag found' hn, Recurrence.countRef_unbound _ tag found hn]
    exact .const _
  case leaf =>
    intro active s n rule hn tag found leaf marks fits
    have found' : rules.lookup s = some rule := found
    refine SettlesAs.call ?_
    simp only [Job.step_ref_bound _ tag found' hn]
    refine SettlesAs.call ?_
    simp only [Job.step_type_leaf _ leaf hn, Recurrence.countRef_leaf _ tag found leaf hn]
    exact .const _
  case met =>
    intro active s n rule hn tag found compound met
    exact bound active s n rule hn tag found compound fun new => absurd met new
  case new =>
    intro active s n rule hn tag found compound _ ih
    exact bound active s n rule hn tag found compound fun _ => ih hn
  case value =>
    intro active tag n hn marks fits
    simp only [Job.body, Recurrence.countBody_value]
    exact .const _
  case union =>
    intro active items n ih hn marks fits
    simp only [Job.body, Recurrence.countBody_union]
    exact ih marks fits
  case free =>
    intro active items n leaves ih hn marks fits
    rw [Recurrence.countBody_product_leaves _ items leaves]
    obtain rfl : mode = .leaves := leaves
    simp only [Job.body]
    exact ih marks fits
  case costly_zero =>
    intro active items nodes hn
    exact absurd rfl hn
  case costly =>
    intro active items n nodes hn ih _ marks fits
    rw [Recurrence.countBody_product_nodes _ items nodes hn]
    obtain rfl : mode = .nodes := nodes
    simp only [Job.body]
    exact ih marks (Fits.smaller fits.above (by omega))
  case empty =>
    intro active n marks fits
    refine SettlesAs.call ?_
    simp only [Job.step, Recurrence.countSequences_nil]
    exact .const _
  case single =>
    intro active r n ih marks fits
    refine SettlesAs.call ?_
    simp only [Job.step, Recurrence.countSequences_single]
    exact ih marks fits
  case short =>
    intro active head second rest n short marks fits
    refine SettlesAs.call ?_
    simp only [Job.step, if_pos short, Recurrence.countSequences_short _ _ _ _ short]
    exact .const _
  case long =>
    intro active head second rest n long ih marks fits
    refine SettlesAs.call ?_
    simp only [Job.step, if_neg long, Recurrence.countSequences_long _ _ _ _ long]
    exact SettlesAs.remember fun _ => ih _ (List.forall_mem_cons.2 ⟨le_rfl, fits.above⟩)
  case fits =>
    intro head second rest n i room ih₁ ih₂ ih₃ marks above
    simp only [Job.splits_fits _ room, Recurrence.countSplits_fits _ _ _ _ room]
    have smaller : Fits marks [] (i + 1) := Fits.smaller above (by omega)
    have smaller' : Fits marks [] (n - (i + 1)) := Fits.smaller above (by omega)
    refine (ih₁ marks smaller).bind (ref_alike [] head _ marks smaller) fun a => ?_
    refine (ih₂ marks smaller').bind (sequences_alike [] _ _ marks smaller') fun b => ?_
    exact (ih₃ marks above).bind (splits_alike head second rest n _ marks above) fun _ => .const _
  case stop =>
    intro head second rest n i stop marks above
    simp only [Job.splits_stop _ stop, Recurrence.countSplits_stop _ _ _ _ stop]
    exact .const _
  case none =>
    intro active n marks fits
    simp only [List.map_nil, Job.total, Recurrence.countMembers_nil]
    exact .const _
  case some =>
    intro active r rest n ih₁ ih₂ marks fits
    simp only [List.map_cons, Job.total, Recurrence.countMembers_cons]
    refine (ih₁ marks fits).bind (ref_alike active r n marks fits) fun a => ?_
    exact (ih₂ marks fits).bind (members_alike active rest n marks fits) fun _ => .const _

variable {rules mode}

/-- A count for a reference settles when nothing is marked. -/
theorem run_settles_ref (r : Ref) (n : Nat) :
    SettlesAs [] (fun e d => Job.run rules mode e d (.ref r n))
      ((Recurrence.marking rules mode).countRef [] r n) :=
  (run_settles rules mode).1 [] r n [] (Fits.nil n)

/-- And so does a count for a type, whether it is bound or not. -/
theorem run_settles_type (rule : Rule) (n : Nat) :
    SettlesAs [] (fun e d => Job.run rules mode e d (.type rule n))
      ((Recurrence.marking rules mode).countRule rule n) := by
  refine SettlesAs.call ?_
  by_cases hn : n = 0
  · subst hn
    simp only [Job.step_type_zero, Recurrence.countRule_zero]
    exact .const _
  · by_cases leaf : rule.type.isLeaf = true
    · simp only [Job.step_type_leaf _ leaf hn, Recurrence.countRule_leaf _ leaf hn]
      exact .const _
    · simp only [Job.step_type_body _ leaf hn, Recurrence.countRule_body _ leaf hn]
      refine SettlesAs.remember fun _ => ?_
      refine (run_settles rules mode).2.1 [rule.key] rule.type n hn _ ?_
      rw [rule.key_eq]
      exact (Fits.nil n).enter rule.type

end

end TreeGrammar
