import Mathlib
import TreeGrammar.Grammar.Normalisation
import TreeGrammar.Proofs.Bindings.SelfAlias

/-!
# What the naming of nested types does

A fresh name is not in use, because among one more number than there are names in use one is free.
So every type that is moved out gets a name of its own, and the bindings that come out in the end
bind each type of the queue to a body that is the type, item by item: a text stands for itself, and
a nested item is replaced by the name that its type is bound to.

* `FreshNames.fresh_notMem`: a fresh name is not in use.
* `extract_induction`: induction over a naming that ends with bindings.
* `extract_names`, `extract_bodies`: which names are bound, in which order, and to which bodies.
* `Bindings.Binds`, `Bindings.Stands`: what a name is bound to and what a text stands for, once
  nested types have got names.
* `Bindings.Laid`: the same with the names of all types nested in a type.
* `extract_laid`, `extract_binds`: all types of the queue are bound in this sense, and every name
  bound is that of one of them or of one type nested in one of them.
-/

namespace TreeGrammar

/-! ### Fresh names -/

namespace FreshNames

variable {s : FreshNames}

/-- Two numbers make two names. -/
theorem numbered_injective (s : FreshNames) : Function.Injective s.numbered := by
  intro k k' h
  exact Nat.repr_inj.1 ((String.append_right_inj _).1 h)

/-- All numbers that are passed over are in use. -/
theorem mem_used_of_lt_leastFree {fuel k j : Nat} (above : k ≤ j) (below : j < s.leastFree fuel k) :
    s.numbered j ∈ s.used := by
  induction fuel generalizing k with
  | zero =>
    rw [leastFree] at below
    omega
  | succ fuel ih =>
    rw [leastFree] at below
    split at below
    · next taken =>
      rcases Nat.eq_or_lt_of_le above with rfl | above'
      · exact taken
      · exact ih above' below
    · omega

/-- The search stops at a free number, or at the last one it may try. -/
theorem leastFree_cases (s : FreshNames) (fuel k : Nat) :
    s.numbered (s.leastFree fuel k) ∉ s.used ∨ s.leastFree fuel k = k + fuel := by
  induction fuel generalizing k with
  | zero => exact Or.inr rfl
  | succ fuel ih =>
    rw [leastFree]
    split
    · rcases ih (k + 1) with free | last
      · exact Or.inl free
      · exact Or.inr (by omega)
    · next free => exact Or.inl free

/-- A fresh name is not in use: there are fewer names in use than numbers to try. -/
theorem fresh_notMem (s : FreshNames) : s.fresh.1 ∉ s.used := by
  intro taken
  rcases s.leastFree_cases s.used.length s.next with free | last
  · exact free taken
  · have all : (List.range' s.next (s.used.length + 1)).map s.numbered ⊆ s.used := by
      intro name member
      obtain ⟨j, hj, rfl⟩ := List.mem_map.1 member
      obtain ⟨above, below⟩ := List.mem_range'_1.1 hj
      rcases Nat.lt_or_ge j (s.leastFree s.used.length s.next) with before | after
      · exact mem_used_of_lt_leastFree above before
      · have here : j = s.free := by
          unfold free
          omega
        rw [here]
        exact taken
    have distinct : ((List.range' s.next (s.used.length + 1)).map s.numbered).Nodup :=
      List.Nodup.map s.numbered_injective List.nodup_range'
    have length := (distinct.subperm all).length_le
    rw [List.length_map, List.length_range'] at length
    omega

/-- Names that are given the same number have the same stem. -/
theorem exists_numbered_fresh (s : FreshNames) : ∃ k : Nat, s.fresh.1 = s.stem ++ toString k :=
  ⟨s.free, rfl⟩

end FreshNames

/-! ### The types moved out of one type -/

/-- The type that an item stands for if it is given a name: one that is written in place for itself,
and a builder for the one it gives for that name. -/
inductive Ref.TypedAs (x : String) : Ref → Ty → Prop
  | inline (t : Ty) : Ref.TypedAs x (.inline t) t
  | deferred {b : Builder} {t : Ty} (typed : b.typeNamed x = .ok t) : Ref.TypedAs x (.deferred b) t

/-- The first of several items is a text, or it stands for a type that is moved out under a fresh
name. -/
theorem extractItems_cons_cases {supply : FreshNames} {r : Ref} {rest : List Ref} {h : Extracted}
    (e : extractItems supply (r :: rest) = .ok h) :
    (∃ s h', r = .name s ∧ extractItems supply rest = .ok h' ∧
      h = ⟨s :: h'.texts, h'.moved, h'.supply⟩) ∨
    ∃ t h', r.TypedAs supply.fresh.1 t ∧ extractItems supply.fresh.2 rest = .ok h' ∧
      h = ⟨supply.fresh.1 :: h'.texts, (supply.fresh.1, t) :: h'.moved, h'.supply⟩ := by
  cases r with
  | name s =>
    rw [extractItems] at e
    split at e
    · cases e
    · next h' e' =>
      cases e
      exact Or.inl ⟨s, h', rfl, e', rfl⟩
  | inline t =>
    rw [extractItems] at e
    split at e
    · cases e
    · next h' e' =>
      cases e
      exact Or.inr ⟨t, h', .inline t, e', rfl⟩
  | deferred b =>
    rw [extractItems] at e
    split at e
    · cases e
    · next t typed =>
      split at e
      · cases e
      · next h' e' =>
        cases e
        exact Or.inr ⟨t, h', .deferred typed, e', rfl⟩

/-- Names that were handed out one after the other: each was not in use, and is a numbered name. -/
structure HandedOut (supply : FreshNames) (names : List String) : Prop where
  distinct : names.Nodup
  new : ∀ x ∈ names, x ∉ supply.used
  numbered : ∀ x ∈ names, ∃ k : Nat, x = supply.stem ++ toString k

/-- Nothing has been handed out yet. -/
theorem HandedOut.nil (supply : FreshNames) : HandedOut supply [] :=
  ⟨List.nodup_nil, fun _ h => absurd h List.not_mem_nil, fun _ h => absurd h List.not_mem_nil⟩

/-- One name is handed out, and others after it. -/
theorem HandedOut.cons {supply : FreshNames} {names : List String}
    (later : HandedOut supply.fresh.2 names) : HandedOut supply (supply.fresh.1 :: names) := by
  refine ⟨List.nodup_cons.2 ⟨fun again => ?_, later.distinct⟩, fun x hx => ?_, fun x hx => ?_⟩
  · exact later.new _ again List.mem_cons_self
  · rcases List.mem_cons.1 hx with rfl | hx
    · exact supply.fresh_notMem
    · exact fun used => later.new x hx (List.mem_cons_of_mem _ used)
  · rcases List.mem_cons.1 hx with rfl | hx
    · exact supply.exists_numbered_fresh
    · exact later.numbered x hx

/-- What becomes of the items of one type. -/
structure Extracted.Faithful (supply : FreshNames) (h : Extracted) : Prop where
  names : HandedOut supply (h.moved.map (·.1))
  used : ∀ x, x ∈ h.supply.used ↔ x ∈ supply.used ∨ x ∈ h.moved.map (·.1)
  stem : h.supply.stem = supply.stem

/-- The names that the items of one type are given were handed out, and are in use from then on. -/
theorem extractItems_faithful {supply : FreshNames} {items : List Ref} {h : Extracted}
    (e : extractItems supply items = .ok h) : h.Faithful supply := by
  induction items generalizing supply h with
  | nil =>
    cases e
    exact ⟨.nil supply, fun x => by simp, rfl⟩
  | cons r rest ih =>
    obtain ⟨s, h', -, e', rfl⟩ | ⟨t, h', -, e', rfl⟩ := extractItems_cons_cases e
    · exact ⟨(ih e').names, (ih e').used, (ih e').stem⟩
    · refine ⟨(ih e').names.cons, fun x => ?_, (ih e').stem⟩
      rw [(ih e').used x, show supply.fresh.2.used = supply.fresh.1 :: supply.used from rfl,
        List.map_cons, List.mem_cons, List.mem_cons]
      tauto

/-- A type gets a body of its own kind. A union keeps one of equal texts, and there is one. -/
theorem withTexts_cases {t : Ty} {texts : List String} {body : Body}
    (made : t.withTexts texts = .ok body) :
    (∃ tag, t = .value tag ∧ body = .value tag) ∨
    (∃ items, t = .product items ∧ body = .product texts) ∨
    ∃ items, t = .union items ∧ texts ≠ [] ∧ body = .union texts.eraseDups := by
  cases t with
  | value tag =>
    cases made
    exact Or.inl ⟨tag, rfl, rfl⟩
  | product items =>
    cases made
    exact Or.inr (Or.inl ⟨items, rfl, rfl⟩)
  | union items =>
    rw [Ty.withTexts] at made
    split at made
    · cases made
    · next nonempty =>
      cases made
      exact Or.inr (Or.inr ⟨items, rfl, by simpa using nonempty, rfl⟩)

/-! ### The whole queue -/

/-- A naming that ends with bindings gives the first type of the queue a body, and goes on with the
types moved out of it at the end of the queue. -/
theorem extract_cons_cases {supply : FreshNames} {name : String} {t : Ty} {rest : List Nested}
    {log : List Extraction} {b : Bindings} (e : extract supply ((name, t) :: rest) = .ok (log, b)) :
    ∃ h body log' b', extractItems supply t.items = .ok h ∧ t.withTexts h.texts = .ok body ∧
      extract h.supply (rest ++ h.moved) = .ok (log', b') ∧
        log = Extraction.all name h.moved ++ log' ∧ b = (name, body) :: b' := by
  rw [extract] at e
  split at e
  · cases e
  · next h items =>
    split at e
    · cases e
    · next body made =>
      split at e
      · cases e
      · next log' b' later =>
        cases e
        exact ⟨h, body, log', b', items, made, later, rfl, rfl⟩

/-- Induction over a naming that ends with bindings. The cases in which `extract` fails are ruled
out here, once for all that is said about the bindings. -/
@[elab_as_elim]
theorem extract_induction
    {motive : ∀ (supply : FreshNames) (queue : List Nested) (log : List Extraction) (b : Bindings),
      extract supply queue = .ok (log, b) → Prop}
    (nil : ∀ (supply : FreshNames) (e : extract supply [] = .ok ([], [])), motive supply [] [] [] e)
    (cons : ∀ (supply : FreshNames) (name : String) (t : Ty) (rest : List Nested) (h : Extracted)
      (body : Body) (log : List Extraction) (b : Bindings)
      (_ : extractItems supply t.items = .ok h) (_ : t.withTexts h.texts = .ok body)
      (later : extract h.supply (rest ++ h.moved) = .ok (log, b))
      (e : extract supply ((name, t) :: rest) =
        .ok (Extraction.all name h.moved ++ log, (name, body) :: b)),
      motive h.supply (rest ++ h.moved) log b later → motive supply ((name, t) :: rest) _ _ e)
    {supply : FreshNames} {queue : List Nested} {log : List Extraction} {b : Bindings}
    (e : extract supply queue = .ok (log, b)) : motive supply queue log b e := by
  induction supply, queue using extract.induct generalizing log b with
  | case1 supply =>
    have ends := e
    rw [extract] at ends
    cases ends
    exact nil supply e
  | case2 supply name t rest moved err items =>
    obtain ⟨h, -, -, -, items', -⟩ := extract_cons_cases e
    cases items.symm.trans items'
  | case3 supply name t rest h items err refused =>
    obtain ⟨h', body, -, -, items', made, -⟩ := extract_cons_cases e
    cases items.symm.trans items'
    cases refused.symm.trans made
  | case4 supply name t rest h items body made log' err later ih =>
    obtain ⟨h', body', log', b', items', made', later', rfl, rfl⟩ := extract_cons_cases e
    cases items.symm.trans items'
    cases later.symm.trans later'
  | case5 supply name t rest h items body made log' b' later ih =>
    obtain ⟨h', body', log', b', items', made', later', rfl, rfl⟩ := extract_cons_cases e
    cases items.symm.trans items'
    exact cons supply name t rest h body' log' b' items' made' later' e (ih later')

/-- The log has the names of the types moved out. -/
theorem Extraction.names_all (owner : String) (moved : List Nested) :
    (Extraction.all owner moved).map (·.name) = moved.map (·.1) := by
  rw [Extraction.all, List.map_map]
  rfl

/-- The names bound are those of the queue, and behind them those that were handed out, in the order
of the log. -/
theorem extract_names {supply : FreshNames} {queue : List Nested} {log : List Extraction}
    {b : Bindings} (e : extract supply queue = .ok (log, b)) :
    b.names = queue.map (·.1) ++ log.map (·.name) ∧ HandedOut supply (log.map (·.name)) := by
  induction e using extract_induction with
  | nil supply =>
    exact ⟨rfl, .nil supply⟩
  | cons supply name t rest h body log' b' e' _ e'' _ ih =>
    obtain ⟨names, handed⟩ := ih
    have faithful := extractItems_faithful e'
    rw [List.map_append, Extraction.names_all]
    refine ⟨?_, ?_⟩
    · rw [Bindings.names, List.map_cons]
      rw [Bindings.names, List.map_append] at names
      rw [names, List.map_cons, List.cons_append, List.append_assoc]
    · refine ⟨List.nodup_append.2 ⟨faithful.names.distinct, handed.distinct, ?_⟩, fun x hx => ?_,
        fun x hx => ?_⟩
      · rintro x first _ second rfl
        exact handed.new x second ((faithful.used x).2 (Or.inr first))
      · rcases List.mem_append.1 hx with hx | hx
        · exact faithful.names.new x hx
        · exact fun used => handed.new x hx ((faithful.used x).2 (Or.inl used))
      · rcases List.mem_append.1 hx with hx | hx
        · exact faithful.names.numbered x hx
        · rw [← faithful.stem]
          exact handed.numbered x hx

/-- What holds of the queue whenever a type is taken from it: no name stands in it twice, and all
its names are in use. -/
structure Nested.Queued (supply : FreshNames) (queue : List Nested) : Prop where
  distinct : (queue.map (·.1)).Nodup
  used : ∀ x ∈ queue.map (·.1), x ∈ supply.used

/-- The types moved out of the first one may be put behind the others. -/
theorem Nested.Queued.later {supply : FreshNames} {name : String} {t : Ty} {rest : List Nested}
    {h : Extracted} (queued : Nested.Queued supply ((name, t) :: rest))
    (e : extractItems supply t.items = .ok h) : Nested.Queued h.supply (rest ++ h.moved) := by
  have faithful := extractItems_faithful e
  have distinct := (List.nodup_cons.1 queued.distinct).2
  have used : ∀ x ∈ rest.map (·.1), x ∈ supply.used :=
    fun x hx => queued.used x (List.mem_cons_of_mem _ hx)
  refine ⟨?_, fun x hx => ?_⟩
  · rw [List.map_append]
    refine List.nodup_append.2 ⟨distinct, faithful.names.distinct, ?_⟩
    rintro x first _ second rfl
    exact faithful.names.new x second (used x first)
  · rw [List.map_append, List.mem_append] at hx
    exact (faithful.used x).2 (hx.imp_left (used x))

/-- A type is met while nested types are named: it is in the queue, or moved out and logged. -/
def Nested.Met (queue : List Nested) (log : List Extraction) (p : Nested) : Prop :=
  p ∈ queue ∨ ∃ owner, ⟨p.1, p.2, owner⟩ ∈ log

/-- What is met in a queue is the first type, or is met when the first one has been dealt with. -/
theorem Nested.met_cons_cases {name : String} {t : Ty} {rest moved : List Nested}
    {log : List Extraction} {p : Nested}
    (met : Nested.Met ((name, t) :: rest) (Extraction.all name moved ++ log) p) :
    p = (name, t) ∨ Nested.Met (rest ++ moved) log p := by
  rcases met with given | ⟨owner, logged⟩
  · exact (List.mem_cons.1 given).imp_right fun given => Or.inl (List.mem_append_left _ given)
  · refine Or.inr ?_
    rcases List.mem_append.1 logged with first | logged
    · obtain ⟨q, hq, same⟩ := List.mem_map.1 first
      obtain ⟨name', type, -⟩ := Extraction.mk.inj same
      exact Or.inl (List.mem_append_right _ (Prod.ext name' type ▸ hq))
    · exact Or.inr ⟨owner, logged⟩

/-- Nothing is met in an empty queue. -/
theorem Nested.not_met_nil {p : Nested} : ¬Nested.Met [] [] p := by
  rintro (given | ⟨owner, logged⟩)
  · cases given
  · cases logged

/-- What an item becomes: a text for itself, and otherwise the name of a type that it stands for and
that is moved out of the type of `owner`. -/
def Ref.BecomesIn (log : List Extraction) (owner : String) (r : Ref) (x : String) : Prop :=
  r = .name x ∨ ∃ t, r.TypedAs x t ∧ ⟨x, t, owner⟩ ∈ log

/-- Each item of a type becomes a text for itself or the name of a type that is moved out. -/
theorem extractItems_becomes {supply : FreshNames} {items : List Ref} {h : Extracted}
    (e : extractItems supply items = .ok h) (owner : String) :
    List.Forall₂ (Ref.BecomesIn (Extraction.all owner h.moved) owner) items h.texts := by
  induction items generalizing supply h with
  | nil =>
    cases e
    exact .nil
  | cons r rest ih =>
    obtain ⟨s, h', rfl, e', rfl⟩ | ⟨t, h', typed, e', rfl⟩ := extractItems_cons_cases e
    · exact .cons (Or.inl rfl) (ih e')
    · refine .cons (Or.inr ⟨t, typed, List.mem_cons_self⟩) ((ih e').imp fun r x => ?_)
      exact Or.imp_right fun ⟨t', typed', logged⟩ => ⟨t', typed', List.mem_cons_of_mem _ logged⟩

/-- Every type that is met is bound, and its body is the type with texts for its items. -/
theorem extract_bodies {supply : FreshNames} {queue : List Nested} {log : List Extraction}
    {b : Bindings} (e : extract supply queue = .ok (log, b)) {p : Nested}
    (met : Nested.Met queue log p) : ∃ texts body, p.2.withTexts texts = .ok body ∧
      (p.1, body) ∈ b ∧ List.Forall₂ (Ref.BecomesIn log p.1) p.2.items texts := by
  induction e using extract_induction with
  | nil =>
    exact absurd met Nested.not_met_nil
  | cons supply name t rest h body log' b' e' made e'' _ ih =>
    rcases Nested.met_cons_cases met with rfl | met'
    · refine ⟨h.texts, body, made, List.mem_cons_self, ?_⟩
      refine (extractItems_becomes e' name).imp fun r x => ?_
      exact Or.imp_right fun ⟨t', typed, logged⟩ => ⟨t', typed, List.mem_append_left _ logged⟩
    · obtain ⟨texts, body', made', bound, items⟩ := ih met'
      refine ⟨texts, body', made', List.mem_cons_of_mem _ bound, items.imp fun r x => ?_⟩
      exact Or.imp_right fun ⟨t', typed, logged⟩ => ⟨t', typed, List.mem_append_right _ logged⟩

namespace Bindings

/-- No name is bound twice if none is in the queue, and all those of the queue are in use. -/
theorem names_nodup_of_extract {supply : FreshNames} {queue : List Nested} {log : List Extraction}
    {b : Bindings} (e : extract supply queue = .ok (log, b))
    (queued : Nested.Queued supply queue) : b.names.Nodup := by
  obtain ⟨names, handed⟩ := extract_names e
  rw [names]
  refine List.nodup_append.2 ⟨queued.distinct, handed.distinct, ?_⟩
  rintro x first _ second rfl
  exact handed.new x second (queued.used x first)

mutual

/-- A name is bound to a type whose nested types have got names, none of which is among `given`.
Members of a union that stand for one text are one member. -/
inductive Binds (b : Bindings) (given : List String) : String → Ty → Prop
  | value {s tag : String} (bound : b.lookup s = some (.value tag)) : Binds b given s (.value tag)
  | product {s : String} {texts : List String} {items : List Ref}
      (bound : b.lookup s = some (.product texts))
      (stand : List.Forall₂ (Stands b given) items texts) : Binds b given s (.product items)
  | union {s : String} {texts : List String} {items : List Ref}
      (bound : b.lookup s = some (.union texts.eraseDups))
      (stand : List.Forall₂ (Stands b given) items texts) : Binds b given s (.union items)

/-- A text stands for a reference. -/
inductive Stands (b : Bindings) (given : List String) : Ref → String → Prop
  | name (s : String) : Stands b given (.name s) s
  | inline {s : String} {t : Ty} (new : s ∉ given) (binds : Binds b given s t) :
      Stands b given (.inline t) s
  | deferred {s : String} {builder : Builder} {t : Ty} (new : s ∉ given)
      (typed : builder.typeNamed s = .ok t) (binds : Binds b given s t) :
      Stands b given (.deferred builder) s

end

mutual

/-- A name is bound to a type whose nested types have got the names `nested`, each type's own name
before those of the types nested in it. -/
inductive Laid (b : Bindings) : String → Ty → List String → Prop
  | value {s tag : String} (bound : b.lookup s = some (.value tag)) : Laid b s (.value tag) []
  | product {s : String} {texts nested : List String} {items : List Ref}
      (bound : b.lookup s = some (.product texts)) (laid : LaidAll b items texts nested) :
      Laid b s (.product items) nested
  | union {s : String} {texts nested : List String} {items : List Ref} (nonempty : texts ≠ [])
      (bound : b.lookup s = some (.union texts.eraseDups)) (laid : LaidAll b items texts nested) :
      Laid b s (.union items) nested

/-- Texts stand for references, and the types written in them have got the names `nested`. -/
inductive LaidAll (b : Bindings) : List Ref → List String → List String → Prop
  | nil : LaidAll b [] [] []
  | name {s : String} {items : List Ref} {texts nested : List String}
      (others : LaidAll b items texts nested) : LaidAll b (.name s :: items) (s :: texts) nested
  | type {s : String} {r : Ref} {t : Ty} {items : List Ref} {texts inner nested : List String}
      (typed : r.TypedAs s t) (laid : Laid b s t inner) (others : LaidAll b items texts nested) :
      LaidAll b (r :: items) (s :: texts) (s :: inner ++ nested)

end

mutual

/-- What is laid down is bound, if none of the nested names is given. -/
theorem Laid.binds {b : Bindings} {given : List String} {s : String} {t : Ty}
    {nested : List String} : b.Laid s t nested → (∀ x ∈ nested, x ∉ given) → b.Binds given s t
  | .value bound, _ => .value bound
  | .product bound laid, new => .product bound (laid.stand new)
  | .union _ bound laid, new => .union bound (laid.stand new)

/-- Where nested types have got names that are not given, texts stand for the references. -/
theorem LaidAll.stand {b : Bindings} {given : List String} {items : List Ref}
    {texts nested : List String} : b.LaidAll items texts nested → (∀ x ∈ nested, x ∉ given) →
    List.Forall₂ (b.Stands given) items texts
  | .nil, _ => .nil
  | .name others, new => .cons (.name _) (others.stand new)
  | .type typed laid others, new => by
    have own := List.forall_mem_cons.1 fun x hx => new x (List.mem_append_left _ hx)
    have binds := laid.binds own.2
    refine .cons ?_ (others.stand fun x hx => new x (List.mem_append_right _ hx))
    cases typed with
    | inline => exact .inline own.1 binds
    | deferred typed => exact .deferred own.1 typed binds

end

/-- A name is bound to a type if its body is the type with texts for its items. -/
theorem laid_of_withTexts {b : Bindings} {name : String} {t : Ty} {texts nested : List String}
    {body : Body} (made : t.withTexts texts = .ok body) (bound : b.lookup name = some body)
    (items : b.LaidAll t.items texts nested) : b.Laid name t nested := by
  obtain ⟨tag, rfl, rfl⟩ | ⟨refs, rfl, rfl⟩ | ⟨refs, rfl, nonempty, rfl⟩ := withTexts_cases made
  · cases items
    exact .value bound
  · exact .product bound items
  · exact .union nonempty bound items

end Bindings

open Bindings

/-- The names of types, each before those of the types nested in it. -/
def Nested.allNames (inner : String → List String) (queue : List Nested) : List String :=
  queue.flatMap fun p => p.1 :: inner p.1

/-- The names of types and of those nested in them are the first and the others in some order. -/
theorem Nested.allNames_perm (inner : String → List String) (queue : List Nested) :
    (Nested.allNames inner queue).Perm (queue.map (·.1) ++ queue.flatMap fun p => inner p.1) := by
  induction queue with
  | nil => exact .refl _
  | cons p rest ih =>
    rw [Nested.allNames, List.flatMap_cons, ← Nested.allNames, List.map_cons, List.flatMap_cons,
      List.cons_append, List.cons_append]
    exact .cons p.1 ((ih.append_left _).trans (List.perm_append_comm_assoc _ _ _))

/-- The items of one type are laid down once the types moved out are. -/
theorem extractItems_laid {supply : FreshNames} {items : List Ref} {h : Extracted} {b : Bindings}
    {inner : String → List String} (e : extractItems supply items = .ok h)
    (laid : ∀ p ∈ h.moved, b.Laid p.1 p.2 (inner p.1)) :
    b.LaidAll items h.texts (Nested.allNames inner h.moved) := by
  induction items generalizing supply h with
  | nil =>
    cases e
    exact .nil
  | cons r rest ih =>
    obtain ⟨s, h', rfl, e', rfl⟩ | ⟨t, h', typed, e', rfl⟩ := extractItems_cons_cases e
    · exact .name (ih e' laid)
    · obtain ⟨first, others⟩ := List.forall_mem_cons.1 laid
      exact .type typed first (ih e' others)

/-- All types of the queue are laid down, in any bindings that agree with those that come out, and
the names of the types nested in them are those of the log. -/
theorem extract_laid {supply : FreshNames} {queue : List Nested} {log : List Extraction}
    {b full : Bindings} (e : extract supply queue = .ok (log, b))
    (kept : ∀ s body, b.lookup s = some body → full.lookup s = some body)
    (queued : Nested.Queued supply queue) :
    ∃ inner : String → List String, (∀ p ∈ queue, full.Laid p.1 p.2 (inner p.1)) ∧
      (queue.flatMap fun p => inner p.1).Perm (log.map (·.name)) := by
  induction e using extract_induction with
  | nil =>
    exact ⟨fun _ => [], fun p hp => absurd hp List.not_mem_nil, .refl _⟩
  | cons supply name t rest h body log' b' e' made e'' e ih =>
    -- the name of the first type is bound only once, so what comes later does not touch its body
    have once : name ∉ b'.names := (List.nodup_cons.1 (names_nodup_of_extract e queued)).1
    have kept' : ∀ s body', b'.lookup s = some body' → full.lookup s = some body' := by
      intro s body' bound
      refine kept s body' ?_
      have other : (s == name) = false := by
        rw [beq_eq_false_iff_ne]
        rintro rfl
        exact once (mem_names_of_lookup bound)
      rw [List.lookup_cons, other]
      exact bound
    obtain ⟨inner, later, names⟩ := ih kept' (queued.later e')
    have items := extractItems_laid e' fun p hp => later p (List.mem_append_right _ hp)
    have others : ∀ p ∈ rest, Function.update inner name (Nested.allNames inner h.moved) p.1 =
        inner p.1 := by
      intro p hp
      refine Function.update_of_ne (fun same => ?_) _ _
      exact (List.nodup_cons.1 queued.distinct).1 (List.mem_map.2 ⟨p, hp, same⟩)
    refine ⟨Function.update inner name (Nested.allNames inner h.moved), fun p hp => ?_, ?_⟩
    · rcases List.mem_cons.1 hp with rfl | hp
      · rw [Function.update_self]
        exact laid_of_withTexts made (kept _ body List.lookup_cons_self) items
      · rw [others p hp]
        exact later p (List.mem_append_left _ hp)
    · rw [List.flatMap_cons, Function.update_self, List.flatMap_congr others, List.map_append,
        Extraction.names_all]
      rw [List.flatMap_append] at names
      refine ((Nested.allNames_perm inner h.moved).append_right _).trans ?_
      rw [List.append_assoc]
      exact (List.perm_append_comm.trans names).append_left _

/-- All types of the queue are bound, in any bindings that agree with those that come out. The names
in `given` were in use before, so no type moved out has got one of them. -/
theorem extract_binds {supply : FreshNames} {queue : List Nested} {log : List Extraction}
    {b full : Bindings} {given : List String} (e : extract supply queue = .ok (log, b))
    (kept : ∀ s body, b.lookup s = some body → full.lookup s = some body)
    (queued : Nested.Queued supply queue) (reserved : ∀ x ∈ given, x ∈ supply.used) :
    ∀ p ∈ queue, full.Binds given p.1 p.2 := by
  intro p hp
  obtain ⟨inner, laid, names⟩ := extract_laid e kept queued
  refine (laid p hp).binds fun x hx again => ?_
  have new : x ∈ log.map (·.name) := names.subset (List.mem_flatMap.2 ⟨p, hp, hx⟩)
  exact (extract_names e).2.new x new (reserved x again)

end TreeGrammar
