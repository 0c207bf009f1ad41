import TreeGrammar.Proofs.Sampling.Sources
import TreeGrammar.Proofs.Sampling.Uniform

/-!
# What is asked of the source

Growing asks the source for a number at each choice and nowhere else: once for a union, before its
member is grown, and once for each item of a product but the last, before that item is grown. The
total that is asked for is the number of derivations that are left.

* `Draw.Asking`: the totals that a computation asks for, whatever it is answered.
* `Grammar.Asks`, `Grammar.AsksAll`: the totals along a derivation.
* `Grammar.Asks.length_eq`: how many there are.
* `Consults`: what is asked over sound tables, and how that composes.
* `growing_consults`: growing asks for the totals along the derivation that it follows.
-/

namespace TreeGrammar

/-! ### The totals that are asked for -/

namespace Draw

variable {α β : Type}

/-- All that a computation asks for are numbers below positive totals, and whatever it is answered,
these totals, in their order, and its result have a property. -/
def Asking : (List Int → α → Prop) → Draw α → Prop
  | P, .done a => P [] a
  | P, .ask (.below total) next => 0 < total ∧ ∀ i, 0 ≤ i → i < total →
    (next (.ok i)).Asking fun totals a => P (total :: totals) a
  | _, .ask _ _ => False

/-- What follows from a property of totals and results holds of a computation with the property. -/
theorem Asking.mono {P Q : List Int → α → Prop} {x : Draw α} (h : x.Asking P)
    (le : ∀ totals a, P totals a → Q totals a) : x.Asking Q := by
  induction x generalizing P Q with
  | done a => exact le [] a h
  | ask r next ih =>
    cases r with
    | below total =>
      exact ⟨h.1, fun i nonneg below => ih _ (h.2 i nonneg below) fun totals a => le _ a⟩
    | coin => exact h
    | word => exact h

/-- Where a computation goes on after another its totals come after those of the other. -/
theorem Asking.bind {P : List Int → α → Prop} {Q : List Int → β → Prop} {x : Draw α}
    {f : α → Draw β} (h : x.Asking P)
    (hf : ∀ totals a, P totals a → (f a).Asking fun totals' b => Q (totals ++ totals') b) :
    (x >>= f).Asking Q := by
  induction x generalizing P Q with
  | done a => exact hf [] a h
  | ask r next ih =>
    cases r with
    | below total =>
      exact ⟨h.1, fun i nonneg below => ih _ (h.2 i nonneg below) fun totals a => hf _ a⟩
    | coin => exact h
    | word => exact h

/-- A run on a source that keeps to the limits asks for totals as said. -/
theorem Asking.run {P : List Int → α → Prop} {x : Draw α} (h : x.Asking P) {s : Source}
    (fair : s.Fair) : P (x.run s).2.2 (x.run s).1 := by
  induction x generalizing P s with
  | done a => exact h
  | ask r next ih =>
    cases r with
    | below total =>
      obtain ⟨i, answered, nonneg, below, fair'⟩ := fair.answer (.below total) h.1
      have rest := ih _ (h.2 i nonneg below) fair'
      rw [← answered] at rest
      exact rest
    | coin => exact h.elim
    | word => exact h.elim

/-- The totals that are asked for are positive. -/
theorem Asking.positive {P : List Int → α → Prop} {x : Draw α} (h : x.Asking P) :
    x.Asking fun totals a => (∀ total ∈ totals, 0 < total) ∧ P totals a := by
  induction x generalizing P with
  | done a => exact ⟨fun _ none => absurd none List.not_mem_nil, h⟩
  | ask r next ih =>
    cases r with
    | below total =>
      refine ⟨h.1, fun i nonneg below => (ih _ (h.2 i nonneg below)).mono ?_⟩
      exact fun totals a h' => ⟨List.forall_mem_cons.2 ⟨h.1, h'.1⟩, h'.2⟩
    | coin => exact h
    | word => exact h

end Draw

/-! ### The totals along a derivation -/

mutual

/-- The totals that are asked for when a derivation is followed: for a union the number of its
derivations of that size, and then what is asked for the member. -/
inductive Grammar.Asks (g : Grammar) (mode : Accounting) : Ref → Derivation → List Int → Prop
  | leaf {r : Ref} {tag : String} : Asks g mode r (.leaf tag) []
  | node {s : String} {items : List Ref} {ds : List Derivation} {totals : List Int}
      (bound : g.get? s = some (.product items)) (each : AsksAll g mode items ds totals) :
      Asks g mode (.name s) (.node s ds) totals
  | choice {s : String} {items : List Ref} {i : Nat} {r : Ref} {d : Derivation} {totals : List Int}
      (bound : g.get? s = some (.union items)) (place : items[i]? = some r)
      (member : Asks g mode r d totals) :
      Asks g mode (.name s) (.choice i d)
        ((g.derivations mode (.name s) (d.size mode)).ncard :: totals)

/-- The totals for several items. For all items but the last the number of sequences of derivations
comes first, for this item and those behind it, that are together as large as what is left; for the
last item nothing is left to choose. -/
inductive Grammar.AsksAll (g : Grammar) (mode : Accounting) :
    List Ref → List Derivation → List Int → Prop
  | nil : AsksAll g mode [] [] []
  | last {r : Ref} {d : Derivation} {totals : List Int} (only : Asks g mode r d totals) :
      AsksAll g mode [r] [d] totals
  | cons {head second : Ref} {rest : List Ref} {d : Derivation} {ds : List Derivation}
      {first others : List Int} (here : Asks g mode head d first)
      (behind : AsksAll g mode (second :: rest) ds others) :
      AsksAll g mode (head :: second :: rest) (d :: ds)
        ((g.sequences mode (head :: second :: rest) (Derivation.sizes mode (d :: ds))).ncard ::
          (first ++ others))

end

namespace Derivation

mutual

/-- The number of choices of members of unions. -/
def unions : Derivation → Nat
  | leaf _ => 0
  | node _ ds => unionsAll ds
  | choice _ d => d.unions + 1

/-- The number of such choices in several derivations. -/
def unionsAll : List Derivation → Nat
  | [] => 0
  | d :: ds => d.unions + unionsAll ds

end

mutual

/-- The number of items of products that are not the first of their product. -/
def gaps : Derivation → Nat
  | leaf _ => 0
  | node _ ds => (ds.length - 1) + gapsAll ds
  | choice _ d => d.gaps

/-- The number of such items in several derivations. -/
def gapsAll : List Derivation → Nat
  | [] => 0
  | d :: ds => d.gaps + gapsAll ds

end

end Derivation

section

variable {g : Grammar} {mode : Accounting}

mutual

/-- There is a total for every choice of a member, and for every item of a product but one. -/
theorem Grammar.Asks.length_eq {r : Ref} {d : Derivation} {totals : List Int} :
    g.Asks mode r d totals → totals.length = d.unions + d.gaps
  | .leaf => by rw [Derivation.unions, Derivation.gaps, List.length_nil]
  | .node _ each => by
    rw [Derivation.unions, Derivation.gaps, each.length_eq]
    omega
  | .choice _ _ member => by
    rw [Derivation.unions, Derivation.gaps, List.length_cons, member.length_eq]
    omega

/-- For several items as many totals are asked for as there are items after the first, and choices
and gaps in their derivations. -/
theorem Grammar.AsksAll.length_eq {items : List Ref} {ds : List Derivation} {totals : List Int} :
    g.AsksAll mode items ds totals →
      totals.length = (ds.length - 1) + Derivation.unionsAll ds + Derivation.gapsAll ds
  | .nil => by rw [Derivation.unionsAll, Derivation.gapsAll, List.length_nil, List.length_nil]
  | .last only => by
    rw [Derivation.unionsAll, Derivation.unionsAll, Derivation.gapsAll, Derivation.gapsAll,
      only.length_eq, List.length_singleton]
    omega
  | @AsksAll.cons _ _ _ _ _ _ ds _ _ here behind => by
    have inner : ds ≠ [] := by
      rintro rfl
      cases behind
    have length := List.length_pos_iff.2 inner
    rw [Derivation.unionsAll, Derivation.gapsAll, List.length_cons, List.length_append,
      here.length_eq, behind.length_eq, List.length_cons]
    omega

end

/-! ### How what is asked composes -/

variable {α β : Type}

/-- Over every sound table the totals that a computation asks for and its result have a property,
and it leaves a sound table. -/
def Consults (g : Grammar) (mode : Accounting) (x : Grow α) (P : List Int → α → Prop) : Prop :=
  ∀ table, table.Sound g mode → (x.on table).Asking fun totals out =>
    ∃ a, P totals a ∧ out.1 = .ok a ∧ out.2.Sound g mode

namespace Consults

/-- A result alone asks for nothing. -/
theorem pure {P : List Int → α → Prop} {a : α} (h : P [] a) : Consults g mode (Pure.pure a) P :=
  fun _ sound => ⟨a, h, rfl, sound⟩

/-- What follows asks after what came before has asked. -/
theorem bind {x : Grow α} {P : List Int → α → Prop} {f : α → Grow β} {Q : List Int → β → Prop}
    (hx : Consults g mode x P)
    (hf : ∀ totals a, P totals a → Consults g mode (f a) fun totals' b => Q (totals ++ totals') b) :
    Consults g mode (x >>= f) Q := by
  intro table sound
  rw [Grow.on_bind]
  refine (hx table sound).bind ?_
  rintro totals ⟨_, table'⟩ ⟨a, ha, rfl, sound'⟩
  exact hf totals a ha table' sound'

/-- What is made of a result has no influence on what is asked. -/
theorem map {x : Grow α} {P : List Int → α → Prop} {f : α → β} {Q : List Int → β → Prop}
    (hx : Consults g mode x P) (h : ∀ totals a, P totals a → Q totals (f a)) :
    Consults g mode (x >>= fun a => Pure.pure (f a)) Q := by
  refine hx.bind fun totals a ha => .pure ?_
  rw [List.append_nil]
  exact h totals a ha

/-- Counting on the way asks for nothing. -/
theorem count {x : CountM α} {a : α} {f : α → Grow β} {P : List Int → β → Prop}
    (hx : Answers g mode x (.ok a)) (hf : Consults g mode (f a) P) :
    Consults g mode (Grow.ofCount x >>= f) P := by
  intro table sound
  obtain ⟨table', hon, sound'⟩ := hx table sound
  rw [Grow.on_ofCount_bind, show x.run.run table = (.ok a, table') from hon]
  exact hf table' sound'

/-- A choice asks for a number below the total of its weights. -/
theorem draw {choices : List (α × Int)} (nonneg : Choice.Nonneg choices)
    (positive : Choice.total choices ≠ 0) :
    Consults g mode (Grow.ofDraw (Choice.draw choices)) fun totals o =>
      totals = [Choice.total choices] ∧ ∃ c ∈ choices, 0 < c.2 ∧ o = some c.1 := by
  intro table sound
  rw [Grow.on_ofDraw, Choice.draw_of_total_ne_zero positive]
  have := Choice.total_nonneg nonneg
  refine ⟨by omega, fun r below above => ?_⟩
  obtain ⟨c, member, weight, picked⟩ := Choice.exists_pick nonneg below above
  exact ⟨some c.1, ⟨rfl, c, member, weight, rfl⟩, Choice.result_of_pick picked, sound⟩

end Consults

/-! ### Growing -/

/-- For a union the number of its derivations is asked for. -/
theorem consults_members {s : String} {n : Nat} {weights : List (Ref × Int)} {x : Ref → Grow Trace}
    (weighed : Weighed g mode s n weights)
    (members : ∀ c ∈ weights, c.2 ≠ 0 → Consults g mode (x c.1) fun totals t =>
      ∃ d ∈ g.derivations mode c.1 n, t = d.trace ∧ g.Asks mode c.1 d totals) :
    Consults g mode (Recurrence.drawMember weights x) fun totals t =>
      ∃ d ∈ g.derivations mode (.name s) n, t = d.trace ∧ g.Asks mode (.name s) d totals := by
  have among : ∀ c ∈ Recurrence.placed weights, (c.1.2, c.2) ∈ weights :=
    fun c hc => List.mem_of_getElem? (mem_placed hc)
  have positive := weighed.positive
  rw [← total_placed] at positive
  refine (Consults.draw (fun c hc => (weighed.counts _ (among c hc)).nonneg) positive).bind ?_
  rintro _ _ ⟨rfl, c, hc, weight, rfl⟩
  refine (members _ (among c hc) weight.ne').map ?_
  rintro totals _ ⟨d, ⟨derives, size⟩, rfl, asks⟩
  have place := getElem?_of_placed hc
  refine ⟨.choice c.1.1 d, ⟨.union weighed.untagged weighed.bound place derives, ?_⟩, ?_, ?_⟩
  · rw [Derivation.size_choice, size]
  · rw [Derivation.trace]
  · have total := weighed.total.card
    rw [total_placed, ← total, ← size]
    exact .choice weighed.bound place asks

/-- For the first of several items the number of sequences is asked for. -/
theorem consults_splits {head second : Ref} {rest : List Ref} {n : Nat}
    {weights : List ({ j : Nat // j + 1 + (second :: rest).length ≤ n } × Int)}
    {x : Nat → Grow Trace} {y : Nat → Grow (List Trace)}
    (split : Split g mode head (second :: rest) n weights)
    (parts : ∀ c ∈ weights, ∀ a b, Counts a (g.derivations mode head (c.1.1 + 1)) →
      Counts b (g.sequences mode (second :: rest) (n - (c.1.1 + 1))) → a ≠ 0 → b ≠ 0 →
      (Consults g mode (x (c.1.1 + 1)) fun totals t =>
        ∃ d ∈ g.derivations mode head (c.1.1 + 1), t = d.trace ∧ g.Asks mode head d totals) ∧
      Consults g mode (y (n - (c.1.1 + 1))) fun totals ts =>
        ∃ ds ∈ g.sequences mode (second :: rest) (n - (c.1.1 + 1)), ts = Derivation.traces ds ∧
          g.AsksAll mode (second :: rest) ds totals) :
    Consults g mode (Recurrence.drawSplit weights x y) fun totals ts =>
      ∃ ds ∈ g.sequences mode (head :: second :: rest) n, ts = Derivation.traces ds ∧
        g.AsksAll mode (head :: second :: rest) ds totals := by
  refine (Consults.draw split.nonneg split.positive).bind ?_
  rintro _ _ ⟨rfl, c, hc, weight, rfl⟩
  obtain ⟨a, b, ha, hb, -, nonzero, nonzero'⟩ := split.factors hc weight
  obtain ⟨first, others⟩ := parts c hc a b ha hb nonzero nonzero'
  refine first.bind ?_
  rintro here _ ⟨d, hd, rfl, asks⟩
  refine others.map ?_
  rintro behind _ ⟨ds, hds, rfl, asksAll⟩
  have whole := Split.cons_mem c.1 hd hds
  refine ⟨d :: ds, whole, ?_, ?_⟩
  · rw [Derivation.traces]
  · have total := split.total.card
    rw [List.singleton_append, ← total, ← whole.2]
    exact .cons asks asksAll

/-- Every step of growing asks for the totals along the derivation that it follows. -/
theorem growing_consults (g : Grammar) (mode : Accounting) : Growing g mode
    (fun r n _ x => Consults g mode x fun totals t =>
      ∃ d ∈ g.derivations mode r n, t = d.trace ∧ g.Asks mode r d totals)
    fun items n _ x => Consults g mode x fun totals ts =>
      ∃ ds ∈ g.sequences mode items n, ts = Derivation.traces ds ∧
        g.AsksAll mode items ds totals where
  tag {s} tag :=
    .pure ⟨.leaf s, ⟨.tag tag, Derivation.size_leaf mode s⟩, by rw [Derivation.trace], .leaf⟩
  value {s t} tag bound :=
    .pure ⟨.leaf t, ⟨.value tag bound, Derivation.size_leaf mode t⟩, by rw [Derivation.trace],
      .leaf⟩
  unit {s} tag bound :=
    .pure ⟨.node s [], ⟨.product tag bound .nil, Derivation.size_unit mode s⟩,
      by rw [Derivation.trace, Derivation.traces], .node bound .nil⟩
  product {s items n v x} tag bound inner le consults := by
    refine consults.map ?_
    rintro totals _ ⟨ds, member, rfl, asks⟩
    refine ⟨.node s ds, ?_, by rw [Derivation.trace], .node bound asks⟩
    rw [Grammar.derivations_product tag bound inner le]
    exact ⟨ds, member, rfl⟩
  union := consults_members
  single {r n v x} consults := by
    refine consults.map ?_
    rintro totals _ ⟨d, member, rfl, asks⟩
    refine ⟨[d], ?_, by rw [Derivation.traces, Derivation.traces], .last asks⟩
    rw [Grammar.sequences_single]
    exact ⟨d, member, rfl⟩
  split := consults_splits
  counted := Consults.count
  countedAll := Consults.count

end

end TreeGrammar
