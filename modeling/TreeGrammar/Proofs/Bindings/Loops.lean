import Mathlib
import TreeGrammar.Proofs.Bindings.Opening

/-!
# Names without a finite base

A name has no finite base if aliases lead from it back to itself. Opening unions neither makes such
names nor loses all of them, and it shortens every cycle of unions in unions that it touches. So
flattening comes upon a union that is its own member exactly if there is a cycle of unions in
unions, and before the passes are used up; and what it leaves has a name without a finite base
exactly if there was one to begin with.

* `Bindings.Circular`: a name without a finite base.
* `Bindings.pass_shortens`: a pass leaves shorter cycles of unions in unions.
* `Bindings.flatten_error`: where flattening fails it has come upon such a name.
* `Bindings.exists_flatten`: without cycles of unions in unions it does not fail.
* `Bindings.flatten_circular_iff`: names without a finite base, before and after.
-/

namespace TreeGrammar

namespace Bindings

variable {b b' c c' : Bindings} {x s t u : String} {items : List String} {k : Nat}

/-- Aliases lead from a name back to itself. -/
def Circular (b : Bindings) (s : String) : Prop :=
  Relation.TransGen (fun s t => t ∈ b.next s) s s

/-! ### Ways through unions in unions -/

/-- From one union to another in `k` steps, each to a member. -/
inductive Way (b : Bindings) : Nat → String → String → Prop
  | single {s t : String} (step : b.Nests s t) : Way b 1 s t
  | head {k : Nat} {s t u : String} (step : b.Nests s t) (rest : Way b k t u) : Way b (k + 1) s u

namespace Way

/-- There is at least one step on a way. -/
theorem pos (way : b.Way k s t) : 0 < k := by
  cases way with
  | single => exact Nat.one_pos
  | head => exact Nat.succ_pos _

/-- A way goes on with another one that starts where it ends. -/
theorem append {j : Nat} (first : b.Way j s t) (second : b.Way k t u) : b.Way (j + k) s u := by
  induction first with
  | single step =>
    rw [Nat.add_comm]
    exact .head step second
  | head step _ ih =>
    rw [Nat.add_right_comm]
    exact .head step (ih second)

/-- A way starts at a union. -/
theorem union (way : b.Way k s t) : b.members? s ≠ none := by
  cases way with
  | single step => exact (nests_iff.1 step).2.1
  | head step => exact (nests_iff.1 step).2.1

/-- A way that steps from union to member for ever meets a union again, after at most as many steps
as there are names. -/
theorem exists_of_trap {C : String → Prop} (trap : Trap b.Nests C) :
    ∃ s k, k ≤ b.length ∧ b.Way k s s := by
  classical
  obtain ⟨start, hs⟩ := trap.inhabited
  choose! onward closed step using trap.closed
  have within : ∀ i, C (onward^[i] start) := by
    intro i
    induction i with
    | zero => exact hs
    | succ i ih =>
      rw [Function.iterate_succ_apply']
      exact closed _ ih
  have ways : ∀ i j, b.Way (j + 1) (onward^[i] start) (onward^[i + j + 1] start) := by
    intro i j
    induction j generalizing i with
    | zero =>
      rw [Nat.add_zero, Function.iterate_succ_apply']
      exact .single (step _ (within i))
    | succ j ih =>
      refine .head (step _ (within i)) ?_
      rw [← Function.iterate_succ_apply' onward, show i + (j + 1) + 1 = i + 1 + j + 1 by omega]
      exact ih (i + 1)
  have few : b.names.toFinset.card < (Finset.range (b.length + 1)).card := by
    rw [Finset.card_range]
    refine Nat.lt_succ_of_le ((List.toFinset_card_le _).trans ?_)
    rw [names, List.length_map]
  obtain ⟨i, hi, j, hj, apart, same⟩ := Finset.exists_ne_map_eq_of_card_lt_of_maps_to few
    (f := fun i => onward^[i] start) fun i _ =>
      List.mem_toFinset.2 (mem_names_of_next (step _ (within i)).next)
  wlog less : i < j generalizing i j
  · exact this j hj i hi apart.symm same.symm (by omega)
  · have loop := ways i (j - i - 1)
    rw [show i + (j - i - 1) + 1 = j by omega, show j - i - 1 + 1 = j - i by omega,
      ← show onward^[i] start = onward^[j] start from same] at loop
    have := Finset.mem_range.1 hj
    exact ⟨_, j - i, by omega, loop⟩

end Way

namespace Opens

variable (h : c.Opens x items c')
include h

/-- Any other union keeps the unions among its members. -/
theorem nests_kept (ne : s ≠ x) (step : c.Nests s t) : c'.Nests s t := by
  obtain ⟨aliases, union, union'⟩ := nests_iff.1 step
  refine nests_iff.2 ⟨by rwa [h.next_of_ne ne], ?_, ?_⟩
  · rwa [ne_eq, h.members?_eq_none_iff]
  · rwa [ne_eq, h.members?_eq_none_iff]

/-- The unions among the members of a union that is a member of the one opened. -/
theorem nests_opened (first : c.Nests x s) (second : c.Nests s t) : c'.Nests x t := by
  obtain ⟨step, union, -⟩ := nests_iff.1 first
  obtain ⟨items', found, member, union'⟩ := second
  refine nests_iff.2 ⟨?_, ?_, ?_⟩
  · rw [h.next_opened]
    rw [next_of_members? h.bound] at step
    exact mem_expand.2 (Or.inr ⟨s, step, items', found, member⟩)
  · rwa [ne_eq, h.members?_eq_none_iff]
  · rwa [ne_eq, h.members?_eq_none_iff]

/-- A way stays as it is unless it passes through the union that is opened. -/
theorem way_kept_or_through (way : c.Way k s t) :
    c'.Way k s t ∨ ∃ i j, i + j = k ∧ (s = x ∧ i = 0 ∨ c.Way i s x) ∧ c.Way j x t := by
  induction way with
  | @single s t step =>
    by_cases e : s = x
    · subst e
      exact Or.inr ⟨0, 1, rfl, Or.inl ⟨rfl, rfl⟩, .single step⟩
    · exact Or.inl (.single (h.nests_kept e step))
  | @head k s t u step rest ih =>
    by_cases e : s = x
    · subst e
      exact Or.inr ⟨0, k + 1, by omega, Or.inl ⟨rfl, rfl⟩, .head step rest⟩
    · rcases ih with kept | ⟨i, j, total, before, after⟩
      · exact Or.inl (.head (h.nests_kept e step) kept)
      · refine Or.inr ⟨i + 1, j, by omega, Or.inr ?_, after⟩
        rcases before with ⟨rfl, rfl⟩ | before
        · exact .single step
        · exact .head step before

/-- A way to the union that is opened stays up to where it first gets there. -/
theorem exists_way_to (way : c.Way k s x) (ne : s ≠ x) : ∃ j, j ≤ k ∧ c'.Way j s x := by
  generalize e : x = target at way
  induction way with
  | single step =>
    exact ⟨1, le_rfl, .single (h.nests_kept ne step)⟩
  | @head k s t u step rest ih =>
    by_cases there : t = x
    · subst there
      exact ⟨1, by omega, e ▸ .single (h.nests_kept ne step)⟩
    · obtain ⟨j, le, way⟩ := ih there e
      exact ⟨j + 1, by omega, .head (h.nests_kept ne step) way⟩

/-- A way from the union that is opened back to it becomes shorter by a step: it now leads past its
first member. -/
theorem exists_shorter (way : c.Way k x x) : ∃ j, j + 1 ≤ k ∧ c'.Way j x x := by
  have apart : ¬c.Nests x x := by
    rintro ⟨items', found, member, -⟩
    rw [h.bound] at found
    cases found
    exact h.apart member
  cases way with
  | single step => exact absurd step apart
  | @head k _ s _ first rest =>
    cases rest with
    | single second => exact ⟨1, le_rfl, .single (h.nests_opened first second)⟩
    | @head k _ t _ second rest =>
      have step := h.nests_opened first second
      by_cases e : t = x
      · subst e
        exact ⟨1, by omega, .single step⟩
      · obtain ⟨j, le, way⟩ := h.exists_way_to rest e
        exact ⟨j + 1, by omega, .head step way⟩

/-- A way back to its beginning stays, or one becomes shorter by a step. -/
theorem loop_kept_or_shorter (way : c.Way k s s) :
    c'.Way k s s ∨ ∃ j, j + 1 ≤ k ∧ c'.Way j x x := by
  rcases h.way_kept_or_through way with kept | ⟨i, j, total, before, after⟩
  · exact Or.inl kept
  · refine Or.inr (h.exists_shorter ?_)
    rcases before with ⟨rfl, rfl⟩ | before
    · rw [Nat.zero_add] at total
      exact total ▸ after
    · rw [← total, Nat.add_comm]
      exact after.append before

end Opens

/-- After a pass there is a shorter way from a union back to it: every pass opens the union that
such a way begins with. -/
theorem pass_shortens {opened : Bool} (h : pass [] b = .ok (b', opened)) (distinct : b.names.Nodup)
    (way : b.Way k s s) : ∃ t j, j + 1 ≤ k ∧ b'.Way j t t := by
  have kept := pass_rule (I := fun dealt c => (∃ t j, j + 1 ≤ k ∧ c.Way j t t) ∨
    (c.Way k s s ∧ s ∉ dealt)) h distinct ?_ ?_ (Or.inr ⟨way, List.not_mem_nil⟩)
  · rcases kept with shorter | ⟨way', new⟩
    · exact shorter
    · obtain ⟨items, found⟩ := Option.ne_none_iff_exists'.1 way'.union
      exact absurd (mem_names_of_members? found) new
  · rintro dealt c x none (shorter | ⟨way', new⟩)
    · exact Or.inl shorter
    · refine Or.inr ⟨way', fun again => ?_⟩
      rcases List.mem_append.1 again with again | again
      · exact new again
      · rw [List.mem_singleton.1 again] at way'
        exact way'.union none
  · rintro dealt c x members c' hc - (⟨t, j, short, loop⟩ | ⟨way', new⟩)
    · rcases hc.loop_kept_or_shorter loop with kept | ⟨i, less, shorter⟩
      · exact Or.inl ⟨t, j, short, kept⟩
      · exact Or.inl ⟨x, i, by omega, shorter⟩
    · by_cases e : s = x
      · subst e
        obtain ⟨j, less, shorter⟩ := hc.exists_shorter way'
        exact Or.inl ⟨s, j, less, shorter⟩
      · rcases hc.loop_kept_or_shorter way' with kept | ⟨j, less, shorter⟩
        · refine Or.inr ⟨kept, fun again => ?_⟩
          rcases List.mem_append.1 again with again | again
          · exact new again
          · exact e (List.mem_singleton.1 again)
        · exact Or.inl ⟨x, j, less, shorter⟩

/-- Passes do not succeed where there is a way from a union back to it that has no more steps than
there are passes left. -/
theorem not_way_of_passes {count count' fuel : Nat} (h : b.passes count fuel = .ok (b', count'))
    (distinct : b.names.Nodup) (short : k ≤ fuel) : ¬b.Way k s s := by
  intro way
  induction fuel generalizing b count k s with
  | zero =>
    have := way.pos
    omega
  | succ fuel ih =>
    rw [passes] at h
    split at h
    · cases h
    · next c opened passed =>
      obtain ⟨t, j, less, way'⟩ := pass_shortens passed distinct way
      split at h
      · exact ih h (by rw [pass_names passed distinct]; exact distinct) (by omega) way'
      · next nothing =>
        have flat := pass_not_nests passed distinct (Bool.not_eq_true _ ▸ nothing)
        cases way' with
        | single step => exact flat _ _ step
        | head step => exact flat _ _ step

/-! ### What makes a pass fail -/

/-- A pass that fails has come upon a union that is its own member, or upon one without members, in
bindings of which all holds that opening preserves. -/
theorem pass_error_rule {I : Bindings → Prop} {done todo : Bindings} {e : Failure}
    (h : pass done todo = .error e) (distinct : (done ++ todo).names.Nodup)
    (opens : ∀ c x members c', c.Opens x members c' → I c → I c') (start : I (done ++ todo)) :
    ∃ c x members, I c ∧ c.members? x = some members ∧
      (e = .noFiniteBase x .expanding ∧ x ∈ members ∨
        e = .emptyExpansion x ∧ c.expand members = []) := by
  induction todo generalizing done with
  | nil =>
    rw [pass] at h
    cases h
  | cons p rest ih =>
    obtain ⟨name, body⟩ := p
    -- values and products stay as they are
    have skip : pass (done ++ [(name, body)]) rest = .error e →
        ∃ c x members, I c ∧ c.members? x = some members ∧
          (e = .noFiniteBase x .expanding ∧ x ∈ members ∨
            e = .emptyExpansion x ∧ c.expand members = []) := by
      intro h'
      refine ih h' ?_ ?_
      · rwa [List.append_assoc]
      · rwa [List.append_assoc]
    rcases body with tag | texts | items
    · rw [pass.eq_3 _ _ _ _ fun _ e => by cases e] at h
      exact skip h
    · rw [pass.eq_3 _ _ _ _ fun _ e => by cases e] at h
      exact skip h
    · have bound : (done ++ (name, .union items) :: rest).members? name = some items :=
        members?_eq_some_iff.2 (lookup_eq_of_mem distinct
          (List.mem_append_right done List.mem_cons_self))
      rw [pass] at h
      split at h
      · next own =>
        cases h
        exact ⟨_, name, items, start, bound, Or.inl ⟨rfl, own⟩⟩
      · next apart =>
        simp only at h
        split at h
        · next empty =>
          cases h
          exact ⟨_, name, items, start, bound, Or.inr ⟨rfl, List.isEmpty_iff.1 empty⟩⟩
        · split at h
          · next e' h' =>
            cases h
            -- this union has been opened, so the pass fails further on
            refine ih h' ?_ ?_
            · simpa [Bindings.names] using distinct
            · rw [List.append_assoc]
              exact opens _ _ _ _ (opens_in_place distinct apart) start
          · cases h

/-- What opening preserves holds where a pass of several fails. -/
theorem passes_error_rule {I : Bindings → Prop} {count fuel : Nat} {e : Failure}
    (h : b.passes count fuel = .error e) (distinct : b.names.Nodup)
    (opens : ∀ c x members c', c.Opens x members c' → I c → I c') (start : I b) :
    ∃ c x members, I c ∧ c.members? x = some members ∧
      (e = .noFiniteBase x .expanding ∧ x ∈ members ∨
        e = .emptyExpansion x ∧ c.expand members = []) := by
  induction fuel generalizing b count with
  | zero =>
    rw [passes] at h
    cases h
  | succ fuel ih =>
    rw [passes] at h
    split at h
    · next failed =>
      cases h
      exact pass_error_rule failed distinct opens start
    · next c opened passed =>
      split at h
      · exact ih h (by rw [pass_names passed distinct]; exact distinct)
          (pass_preserves passed distinct opens start)
      · cases h

/-! ### Names without a finite base, before and after -/

/-- No union is without members. -/
def Inhabited (b : Bindings) : Prop :=
  ∀ s, b.members? s ≠ some []

/-- Aliases in the bindings lead where aliases in others do. -/
def Leads (b c : Bindings) : Prop :=
  ∀ s t, t ∈ c.next s → Relation.TransGen (fun s t => t ∈ b.next s) s t

/-- Aliases lead where they lead. -/
theorem Leads.refl (b : Bindings) : b.Leads b :=
  fun _ _ step => .single step

/-- A name that aliases lead back to is one in the earlier bindings too. -/
theorem Leads.circular (h : b.Leads c) (circular : c.Circular s) : b.Circular s :=
  Relation.TransGen.closed (fun s t step => h s t step) s s circular

/-- A union that is opened has members: its first one, or the first of that one's. -/
theorem expand_ne_nil (inhabited : c.Inhabited) (found : c.members? s = some items) :
    c.expand items ≠ [] := by
  rcases items with _ | ⟨item, rest⟩
  · exact absurd found (inhabited s)
  · rcases sub : c.members? item with _ | members
    · exact List.ne_nil_of_mem (mem_expand.2 (Or.inl ⟨List.mem_cons_self, sub⟩))
    · rcases members with _ | ⟨member, others⟩
      · exact absurd sub (inhabited item)
      · exact List.ne_nil_of_mem (mem_expand.2
          (Or.inr ⟨item, List.mem_cons_self, _, sub, List.mem_cons_self⟩))

namespace Opens

variable (h : c.Opens x items c')
include h

/-- Opening leaves no union without members. -/
theorem inhabited (all : c.Inhabited) : c'.Inhabited := by
  intro s none
  by_cases e : s = x
  · subst e
    rw [h.opened] at none
    exact expand_ne_nil all h.bound (Option.some.inj none)
  · rw [h.members?_of_ne e] at none
    exact all s none

/-- Aliases lead nowhere new when a union is opened: its new members are members of its members. -/
theorem leads (all : b.Leads c) : b.Leads c' := by
  intro s t step
  by_cases e : s = x
  · subst e
    rw [h.next_opened] at step
    have own : ∀ y ∈ items, Relation.TransGen (fun s t => t ∈ b.next s) s y := fun y hy =>
      all s y (by rwa [next_of_members? h.bound])
    rcases mem_expand.1 step with ⟨member, -⟩ | ⟨y, hy, sub, found, member⟩
    · exact own t member
    · exact (own y hy).trans (all y t (by rwa [next_of_members? found]))
  · rw [h.next_of_ne e] at step
    exact all s t step

end Opens

section flatten

variable (distinct : b.names.Nodup) (inhabited : b.Inhabited)
include distinct

/-- Flattening keeps that no union is without members, and aliases lead nowhere else. -/
theorem flatten_leads {count : Nat} (h : b.flatten = .ok (b', count)) : b.Leads b' :=
  passes_rule (I := b.Leads) h distinct (fun _ _ _ _ hc all => hc.leads all) (.refl b)

/-- Where nothing that opens leads back after flattening nothing did before. -/
theorem flatten_circular_iff {count : Nat} (h : b.flatten = .ok (b', count)) :
    (∃ s, b'.Circular s) ↔ ∃ s, b.Circular s := by
  refine ⟨fun ⟨s, circular⟩ => ⟨s, (flatten_leads distinct h).circular circular⟩, ?_⟩
  rintro ⟨s, circular⟩
  by_contra none
  have trap := passes_rule (I := fun c => Trap (fun s t => t ∈ c.next s) _) h distinct
    (fun _ _ _ _ hc trap => hc.trap trap) (trap_of_cycle circular)
  obtain ⟨r, -, less⟩ := exists_rank (E := fun s t => t ∈ b'.next s) (l := b'.names)
    (fun _ _ => mem_names_of_next) fun s circular' => none ⟨s, circular'⟩
  exact not_trap_of_rank less _ trap

/-- Where there is a cycle of unions in unions flattening fails. -/
theorem exists_flatten_error (cycle : Relation.TransGen b.Nests s s) :
    ∃ e, b.flatten = .error e := by
  rcases result : b.flatten with e | ⟨b', count⟩
  · exact ⟨e, rfl⟩
  · obtain ⟨t, k, short, way⟩ := Way.exists_of_trap (trap_of_cycle cycle)
    exact absurd way (not_way_of_passes result distinct (by omega))

include inhabited

/-- Where flattening fails it has come upon a name without a finite base. -/
theorem flatten_error {e : Failure} (h : b.flatten = .error e) :
    ∃ s, e = .noFiniteBase s .expanding ∧ b.Circular s := by
  obtain ⟨c, s, members, ⟨leads, all⟩, found, ⟨e, own⟩ | ⟨e, none⟩⟩ :=
    passes_error_rule (I := fun c => b.Leads c ∧ c.Inhabited) h distinct
      (fun _ _ _ _ hc held => ⟨hc.leads held.1, hc.inhabited held.2⟩) ⟨.refl b, inhabited⟩
  · exact ⟨s, e, leads s s (by rwa [next_of_members? found])⟩
  · exact absurd none (expand_ne_nil all found)

/-- Flattening succeeds where every name has a finite base. -/
theorem exists_flatten (founded : ∀ s, ¬b.Circular s) :
    ∃ flat count, b.flatten = .ok (flat, count) := by
  rcases result : b.flatten with e | ⟨flat, count⟩
  · obtain ⟨s, -, circular⟩ := flatten_error distinct inhabited result
    exact absurd circular (founded s)
  · exact ⟨flat, count, rfl⟩

end flatten

/-- Where every name has a finite base no chain of unions in unions comes back to its beginning. -/
theorem acyclic_of_founded (founded : ∀ s, ¬b.Circular s) (s : String) :
    ¬Relation.TransGen b.Nests s s := by
  have le : b.Nests ≤ fun s t => t ∈ b.next s := fun _ _ => Nests.next
  exact fun cycle => founded s (Relation.TransGen.mono le s s cycle)

/-- Where every name has a finite base flattening leaves no union in a union. -/
theorem flat_of_founded (distinct : b.names.Nodup) (founded : ∀ s, ¬b.Circular s) {count : Nat}
    (h : b.flatten = .ok (b', count)) : b'.Flat := by
  refine flatten_flat h distinct (acyclic_of_founded fun s circular => ?_)
  exact founded s ((flatten_leads distinct h).circular circular)

end Bindings

end TreeGrammar
