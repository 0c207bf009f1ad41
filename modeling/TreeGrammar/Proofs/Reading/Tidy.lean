import Mathlib
import TreeGrammar.Bindings.Extraction
import TreeGrammar.Proofs.Reading.Written

/-!
# Unions hold each form once

A union drops the members that have the canonical form of an earlier one, and everything that is
read is built of such unions. So no two members of a union have one form, wherever it is nested, and
whatever name a builder in it is given.

* `Ref.nodup_canonical_distinct`: what a union keeps has distinct canonical forms.
* `Ref.Tidy`, `Ty.Tidy`, `Builder.Tidy`: in all unions that are written in something members have
  distinct canonical forms.
* `Expr.tidy_bindTo`, `Builder.tidy_typeNamed`: types that are read are tidy.
-/

namespace TreeGrammar

/-- What is kept of pairs with one first component is the first of them. -/
theorem nodup_eraseDupsBy {α : Type} (l : List (String × α)) :
    ((l.eraseDupsBy (·.1 == ·.1)).map (·.1)).Nodup := by
  induction l using filter_induction with
  | nil => exact List.nodup_nil
  | cons x rest ih =>
    rw [List.eraseDupsBy_cons, List.map_cons]
    refine List.nodup_cons.2 ⟨fun again => ?_, ih _⟩
    obtain ⟨y, hy, same⟩ := List.mem_map.1 again
    have other := (List.mem_filter.1 ((eraseDupsBy_sublist _ _).subset hy)).2
    rw [same, beq_self_eq_true] at other
    cases other

/-- What a union keeps has distinct canonical forms. -/
theorem Ref.nodup_canonical_distinct (items : List Ref) :
    ((Ref.distinct items).map Ref.canonical).Nodup := by
  have pairs := nodup_eraseDupsBy (items.map fun r => (r.canonical, r))
  rw [Ref.distinct, List.map_map]
  rwa [List.map_congr_left fun p hp => ?_] at pairs
  obtain ⟨r, -, rfl⟩ := List.mem_map.1 ((eraseDupsBy_sublist _ _).subset hp)
  rfl

mutual

/-- In the unions that are written in a reference members have distinct canonical forms. -/
def Ref.Tidy : Ref → Prop
  | .name _ => True
  | .inline t => t.Tidy
  | .deferred b => b.Tidy

/-- In the unions that are written in a type members have distinct canonical forms. -/
def Ty.Tidy : Ty → Prop
  | .value _ => True
  | .product items => Ref.AllTidy items
  | .union items => (items.map Ref.canonical).Nodup ∧ Ref.AllTidy items

/-- In the unions that are written in the element type of a builder members have distinct canonical
forms. A body is not read before the builder has its name. -/
def Builder.Tidy : Builder → Prop
  | .written _ _ _ => True
  | .list _ _ elem => elem.Tidy

/-- Several references are tidy. -/
def Ref.AllTidy : List Ref → Prop
  | [] => True
  | r :: rest => r.Tidy ∧ Ref.AllTidy rest

end

/-- Several references are tidy exactly if each is. -/
theorem Ref.allTidy_iff {items : List Ref} : Ref.AllTidy items ↔ ∀ r ∈ items, r.Tidy := by
  induction items with
  | nil => simp [Ref.AllTidy]
  | cons r rest ih => simp [Ref.AllTidy, ih]

/-- The items of a tidy type are tidy. -/
theorem Ty.Tidy.items {t : Ty} (h : t.Tidy) : ∀ r ∈ t.items, r.Tidy := by
  cases t with
  | value tag => exact fun r hr => absurd hr List.not_mem_nil
  | product refs => exact Ref.allTidy_iff.1 h
  | union refs => exact Ref.allTidy_iff.1 h.2

/-! ### What is read -/

/-- A union drops repetitions, so it is tidy if its members are. -/
theorem passedOn_tidy (bs : List (Nat × Expr)) : PassedOn bs Ref.Tidy where
  name _ := trivial
  value _ := trivial
  product each := Ref.allTidy_iff.2 each
  union each := ⟨Ref.nodup_canonical_distinct _,
    Ref.allTidy_iff.2 fun r hr => each r ((Ref.distinct_sublist _).subset hr)⟩
  written _ _ := trivial
  list _ _ _ each := each

/-- A type that an expression is read as for a name is tidy. -/
theorem Expr.tidy_bindTo {e : Expr} {name : String} {scope : List String} {t : Ty}
    (read : e.bindTo name scope = .ok (.ref (.inline t))) : t.Tidy :=
  (passedOn_tidy e.binders).bindTo e (fun _ binder => binder) read

/-- What a tidy builder gives for a name is tidy. -/
theorem Builder.tidy_typeNamed {b : Builder} {name : String} {t : Ty}
    (h : b.typeNamed name = .ok t) (hb : b.Tidy) : t.Tidy := by
  unfold Builder.typeNamed at h
  split at h
  · cases h
  · next bound =>
    cases h
    cases b with
    | written label scope body => exact Expr.tidy_bindTo bound
    | list label scope elem =>
      obtain ⟨t, made, same⟩ := ofTy_cases bound
      cases same
      exact (passedOn_tidy []).listOf made hb
  · cases h

end TreeGrammar
