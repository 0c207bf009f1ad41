import TreeGrammar.Proofs.Bindings.Queue

/-!
# Supplies of names, call by call

A supply hands out names and is told to reserve others, in any order. The number at which a search
begins is not advanced when a name is handed out, and names may be reserved ahead of it or behind.
Every call keeps all names with a number below it in use; hence a search, which passes over those in
use from there on, ends at the least number of all that are free.

* `FreshNames.Search`: the search for a free number, turn by turn; it ends, and at one number only.
* `FreshNames.Call`, `FreshNames.after`: calls, and the supply after several of them.
* `FreshNames.step_spec`, `FreshNames.Dense.step`: what a call keeps.
* `FreshNames.mem_used_after`: in use is what was in use before, was reserved or was handed out.
* `FreshNames.fresh_least`: the name that is handed out, whatever was asked for before.
-/

namespace TreeGrammar

namespace FreshNames

variable {s : FreshNames}

/-! ### The search -/

/-- The search for a free number, from one on: a number whose name is in use is passed over, and the
first whose name is not ends it. -/
inductive Search (s : FreshNames) : (start stop : Nat) → Prop
  | stop {k : Nat} (free : s.numbered k ∉ s.used) : Search s k k
  | pass {k m : Nat} (taken : s.numbered k ∈ s.used) (later : Search s (k + 1) m) : Search s k m

/-- The search ends at a single number. -/
theorem Search.unique {k m m' : Nat} (h : s.Search k m) (h' : s.Search k m') : m = m' := by
  induction h with
  | stop free =>
    cases h' with
    | stop => rfl
    | pass taken => exact absurd taken free
  | pass taken _ ih =>
    cases h' with
    | stop free => exact absurd taken free
    | pass _ later => exact ih later

/-- The search only goes up. -/
theorem Search.le {k m : Nat} (h : s.Search k m) : k ≤ m := by
  induction h with
  | stop => exact le_rfl
  | pass _ _ ih => omega

/-- The number that is found ends the search, if its name is free. -/
theorem search_leastFree {fuel k : Nat} (free : s.numbered (s.leastFree fuel k) ∉ s.used) :
    s.Search k (s.leastFree fuel k) := by
  induction fuel generalizing k with
  | zero => exact .stop free
  | succ fuel ih =>
    rw [leastFree] at free ⊢
    split
    · next taken =>
      rw [if_pos taken] at free
      exact .pass taken (ih free)
    · next here => exact .stop here

/-- The search ends, at the number that is handed out and at no other. -/
theorem search_iff (s : FreshNames) (m : Nat) : s.Search s.next m ↔ m = s.free := by
  have ends : s.Search s.next s.free := search_leastFree s.fresh_notMem
  exact ⟨fun h => h.unique ends, fun e => e ▸ ends⟩

/-! ### Calls -/

/-- What a supply is asked to do. -/
inductive Call where
  | fresh
  | reserve (name : String)

/-- A supply after a call. -/
def step (s : FreshNames) : Call → FreshNames
  | .fresh => s.fresh.2
  | .reserve name => s.reserve name

/-- A supply after several calls. -/
def after (s : FreshNames) (calls : List Call) : FreshNames :=
  calls.foldl step s

/-- The names handed out along several calls. -/
def given (s : FreshNames) : List Call → List String
  | [] => []
  | .fresh :: rest => s.fresh.1 :: s.fresh.2.given rest
  | .reserve name :: rest => (s.reserve name).given rest

/-- Equation lemma: a supply after a first call and others is the one after the others on what the
first leaves. -/
theorem after_cons (s : FreshNames) (call : Call) (rest : List Call) :
    s.after (call :: rest) = (s.step call).after rest := rfl

/-- The name handed out is in use, and nothing else is that was not. -/
theorem mem_used_fresh {x : String} : x ∈ s.fresh.2.used ↔ x = s.fresh.1 ∨ x ∈ s.used :=
  List.mem_cons

/-- A name is reserved by putting it to use, and nothing else changes. -/
theorem reserve_spec (s : FreshNames) (name : String) :
    (∀ x, x ∈ (s.reserve name).used ↔ x = name ∨ x ∈ s.used) ∧
      (s.reserve name).stem = s.stem ∧ (s.reserve name).next = s.next := by
  unfold reserve
  split
  · next known =>
    refine ⟨fun x => ⟨Or.inr, ?_⟩, rfl, rfl⟩
    rintro (rfl | old)
    · exact known
    · exact old
  · exact ⟨fun x => List.mem_cons, rfl, rfl⟩

/-- A call keeps the stem and never sets the search back. -/
theorem step_spec (s : FreshNames) (call : Call) :
    (s.step call).stem = s.stem ∧ s.next ≤ (s.step call).next := by
  cases call with
  | fresh => exact ⟨rfl, ((s.search_iff s.free).2 rfl).le⟩
  | reserve name =>
    obtain ⟨-, stem, next⟩ := s.reserve_spec name
    exact ⟨stem, next.ge⟩

/-- All names with a number below the one at which the search begins stay in use. -/
theorem Dense.step (h : s.Dense) (call : Call) : (s.step call).Dense := by
  cases call with
  | fresh => exact h.fresh
  | reserve name =>
    obtain ⟨used, stem, next⟩ := s.reserve_spec name
    intro k below
    change k < (s.reserve name).next at below
    change (s.reserve name).numbered k ∈ (s.reserve name).used
    rw [next] at below
    rw [used, numbered, stem]
    exact Or.inr (h k below)

/-- Whatever a supply is asked to do, no number below the start of its search becomes free. -/
theorem Dense.after (h : s.Dense) (calls : List Call) : (s.after calls).Dense := by
  induction calls generalizing s with
  | nil => exact h
  | cons call rest ih => exact ih (h.step call)

/-- The stem stays whatever a supply is asked to do. -/
theorem stem_after (s : FreshNames) (calls : List Call) : (s.after calls).stem = s.stem := by
  induction calls generalizing s with
  | nil => rfl
  | cons call rest ih => rw [after_cons, ih, (s.step_spec call).1]

/-- The search never begins further down than before. -/
theorem next_le_next_after (s : FreshNames) (calls : List Call) :
    s.next ≤ (s.after calls).next := by
  induction calls generalizing s with
  | nil => exact le_rfl
  | cons call rest ih => exact (s.step_spec call).2.trans (ih _)

/-- In use is what was in use before, what was reserved and what was handed out. -/
theorem mem_used_after {calls : List Call} {x : String} :
    x ∈ (s.after calls).used ↔ x ∈ s.used ∨ .reserve x ∈ calls ∨ x ∈ s.given calls := by
  induction calls generalizing s with
  | nil => simp [after, given]
  | cons call rest ih =>
    rw [after_cons, ih]
    cases call with
    | fresh =>
      rw [step, mem_used_fresh, given, List.mem_cons, List.mem_cons]
      simp only [reduceCtorEq, false_or]
      tauto
    | reserve name =>
      rw [step, (s.reserve_spec name).1, given, List.mem_cons, Call.reserve.injEq]
      tauto

/-- After any calls a search ends, and the name that is handed out is the stem with the least number
of all whose names are not in use then: neither among the names that were in use at first, nor
reserved, nor handed out before. From then on the search never begins at a smaller number, and all
names with smaller numbers than that at which it begins are in use. -/
theorem fresh_least (names : List String) (stem : String) (calls : List Call) :
    let start := ofUsed names stem
    let s := start.after calls
    (∀ x, x ∈ s.used ↔ x ∈ names ∨ .reserve x ∈ calls ∨ x ∈ start.given calls) ∧
      (∃ k, (∀ m, s.Search s.next m ↔ m = k) ∧ s.fresh.1 = stem ++ toString k ∧
        IsLeast {j | stem ++ toString j ∉ s.used} k) ∧
      (s.fresh.1 ∉ names ∧ .reserve s.fresh.1 ∉ calls ∧ s.fresh.1 ∉ start.given calls) ∧
      (∀ more, s.next ≤ (s.after more).next) ∧ ∀ k < s.next, stem ++ toString k ∈ s.used := by
  intro start s
  have used : ∀ x, x ∈ s.used ↔ x ∈ names ∨ .reserve x ∈ calls ∨ x ∈ start.given calls := by
    intro x
    rw [mem_used_after, show start.used = names.eraseDups from rfl, List.mem_eraseDups]
  have numbered : ∀ k, s.numbered k = stem ++ toString k := fun k => by
    rw [FreshNames.numbered, stem_after, show start.stem = stem from rfl]
  have dense : s.Dense := (dense_ofUsed names stem).after calls
  have new := s.fresh_notMem
  rw [used, not_or, not_or] at new
  refine ⟨used, ⟨s.free, s.search_iff, numbered _, ?_⟩, new, s.next_le_next_after, ?_⟩
  · simpa only [numbered] using dense.isLeast
  · intro k below
    rw [← numbered]
    exact dense k below

example : (ofUsed ["t_0"] "t_").given [.fresh, .reserve "t_2", .reserve "t_0", .fresh] =
    ["t_1", "t_3"] := by decide

end FreshNames

end TreeGrammar
