import Mathlib
import TreeGrammar.Proofs.Bindings.Queue
import TreeGrammar.Proofs.Reading.Rewriting
import TreeGrammar.Proofs.Reading.Tidy

/-!
# Naming nested types can be undone

Where definitions refer to nothing but the names they give and tags, no text in a type is a name
that is handed out to its nested types. So each of these names stands in one place only of the type
that the nested one was moved out of, and no member of a union gets the text of another. If the body
of every such name is put back there, what was written comes back, in which each builder has become
the type that it gives for the name of its place.

* `Ty.Settled`: all that a type refers to is in use, and its unions are tidy.
* `Nested.Handled`, `extract_handled`: how a type that is met is handled.
* `Bindings.Resolves`: a type with the types that its builders give.
* `Bindings.Restores`: a body with the types put back that were moved out of it.
* `Definition.Hoisted`, `naming_reversible`: what naming nested types comes to.
-/

namespace TreeGrammar

/-! ### Types that refer to names in use -/

/-- A text is a tag or in use. -/
def KnownIn (used : List String) (s s' : String) : Prop :=
  s = s' ∧ (isTag s = true ∨ s ∈ used)

/-- What is known stays so when more names are in use. -/
theorem KnownIn.mono {used used' : List String} (sub : ∀ x ∈ used, x ∈ used') (s s' : String)
    (h : KnownIn used s s') : KnownIn used' s s' :=
  ⟨h.1, h.2.imp_right (sub s)⟩

/-- Texts that are known match themselves only. -/
theorem matching_knownIn (used : List String) : Matching (KnownIn used) := by
  refine ⟨?_, fun tag => ⟨rfl, Or.inl tag⟩, ?_⟩
  · rintro s _ t _ ⟨rfl, -⟩ ⟨rfl, -⟩
    exact Iff.rfl
  · rintro s _ ⟨rfl, -⟩
    exact Iff.rfl

/-- All that a type refers to is a tag or in use, and no two members of a union in it have one
form. -/
structure Ty.Settled (used : List String) (t : Ty) : Prop where
  known : t.Alike (KnownIn used) id t
  tidy : t.Tidy

/-- An item that is tidy stands for a tidy type, since reading drops the repetitions in a body. -/
theorem Ref.TypedAs.tidy {x : String} {r : Ref} {t : Ty} (typed : r.TypedAs x t) (h : r.Tidy) :
    t.Tidy := by
  cases typed with
  | inline => exact h
  | deferred typed => exact Builder.tidy_typeNamed typed h

namespace Ty.Settled

variable {used used' : List String} {t : Ty}

/-- What is settled stays so when more names are in use. -/
theorem mono (h : t.Settled used) (sub : ∀ x ∈ used, x ∈ used') : t.Settled used' :=
  ⟨h.known.mono (KnownIn.mono sub), h.tidy⟩

/-- A text that a settled type refers to is a tag or in use. -/
theorem known_name (h : t.Settled used) {s : String} (item : .name s ∈ t.items) :
    isTag s = true ∨ s ∈ used := by
  cases h.known.items.of_mem _ item with
  | name same => exact same.2

/-- A type nested in a settled one is settled once its own name is in use. -/
theorem nested (h : t.Settled used) {r : Ref} (item : r ∈ t.items) {x : String} {u : Ty}
    (typed : r.TypedAs x u) (own : x ∈ used) : u.Settled used :=
  ⟨typed.alike (matching_knownIn used) ⟨rfl, Or.inr own⟩ (h.known.items.of_mem r item),
    typed.tidy (h.tidy.items r item)⟩

end Ty.Settled

/-- Definitions that refer to nothing but their own names and tags are settled. -/
theorem Definition.settled {defs : List (String × Expr)} {ds : List Definition}
    (literals : ∀ s ∈ Expr.literalsAll (defs.map (·.2)), isTag s = true ∨ s ∈ defs.map (·.1))
    (made : Definition.makeAll defs = .ok ds) {d : Definition} (hd : d ∈ ds) :
    d.type.Settled (ds.map (·.name)) := by
  constructor
  · refine (Definition.alike_self literals made hd).mono fun s s' spelled => ?_
    rcases spelled with ⟨tag, rfl⟩ | given
    · exact ⟨rfl, Or.inl tag⟩
    · obtain ⟨n, hn, same⟩ := List.mem_map.1 given
      cases same
      exact ⟨rfl, Or.inr hn⟩
  · obtain ⟨p, -, -, read⟩ := exists_of_forall₂_right (makeAll_cases made) d hd
    exact Expr.tidy_bindTo read

/-! ### The items of one type -/

/-- A numbered name that is handed out is neither a tag nor in use. -/
theorem HandedOut.not_known {supply : FreshNames} {names : List String}
    (h : HandedOut supply names) (stem : supply.stem = "t_") {x : String} (hx : x ∈ names) :
    ¬(isTag x = true ∨ x ∈ supply.used) := by
  rintro (tag | used)
  · obtain ⟨k, rfl⟩ := h.numbered x hx
    rw [stem] at tag
    exact not_isTag_numbered k tag
  · exact h.new x hx used

/-- A text in the place of an item was written there or was handed out. -/
theorem extractItems_mem_texts {supply : FreshNames} {items : List Ref} {h : Extracted}
    (e : extractItems supply items = .ok h) {x : String} (hx : x ∈ h.texts) :
    .name x ∈ items ∨ x ∈ h.moved.map (·.1) := by
  induction items generalizing supply h with
  | nil =>
    cases e
    cases hx
  | cons r rest ih =>
    obtain ⟨s, h', rfl, e', rfl⟩ | ⟨t, h', -, e', rfl⟩ := extractItems_cons_cases e
    · rcases List.mem_cons.1 hx with rfl | hx
      · exact Or.inl List.mem_cons_self
      · exact (ih e' hx).imp_left (List.mem_cons_of_mem _)
    · rcases List.mem_cons.1 hx with rfl | hx
      · exact Or.inr List.mem_cons_self
      · exact (ih e' hx).imp (List.mem_cons_of_mem _) (List.mem_cons_of_mem _)

/-- Items with distinct canonical forms get distinct texts: a name that is handed out is no item
that stands there already. -/
theorem extractItems_nodup {supply : FreshNames} {items : List Ref} {h : Extracted}
    (e : extractItems supply items = .ok h) (stem : supply.stem = "t_")
    (distinct : (items.map Ref.canonical).Nodup)
    (known : ∀ s, .name s ∈ items → isTag s = true ∨ s ∈ supply.used) : h.texts.Nodup := by
  induction items generalizing supply h with
  | nil =>
    cases e
    exact List.nodup_nil
  | cons r rest ih =>
    rw [List.map_cons, List.nodup_cons] at distinct
    obtain ⟨s, h', rfl, e', rfl⟩ | ⟨t, h', -, e', rfl⟩ := extractItems_cons_cases e
    · refine List.nodup_cons.2 ⟨fun again => ?_, ih e' stem distinct.2 fun s' hs' =>
        known s' (List.mem_cons_of_mem _ hs')⟩
      rcases extractItems_mem_texts e' again with item | moved
      · exact distinct.1 (List.mem_map_of_mem item)
      · exact (extractItems_faithful e').names.not_known stem moved (known s List.mem_cons_self)
    · have handed := (extractItems_faithful e).names
      rw [List.map_cons] at handed
      refine List.nodup_cons.2 ⟨fun again => ?_, ih e' stem distinct.2 fun s' hs' =>
        (known s' (List.mem_cons_of_mem _ hs')).imp_right (List.mem_cons_of_mem _)⟩
      rcases extractItems_mem_texts e' again with item | moved
      · exact handed.not_known stem List.mem_cons_self (known _ (List.mem_cons_of_mem _ item))
      · exact (List.nodup_cons.1 handed.distinct).1 moved

/-- The body that a type has if its items are these texts, all of them. -/
def Ty.refilled (t : Ty) (texts : List String) : Body :=
  match t with
  | value tag => .value tag
  | product _ => .product texts
  | union _ => .union texts

/-- A type drops no text, if it is no union or the texts are distinct. -/
theorem Ty.eq_refilled {t : Ty} {texts : List String} {body : Body}
    (made : t.withTexts texts = .ok body)
    (distinct : ∀ items, t = .union items → texts.Nodup) : body = t.refilled texts := by
  obtain ⟨tag, rfl, rfl⟩ | ⟨items, rfl, rfl⟩ | ⟨items, rfl, -, rfl⟩ := withTexts_cases made
  · rfl
  · rfl
  · rw [Bindings.eraseDups_of_nodup (distinct items rfl), Ty.refilled]

/-! ### The whole queue -/

/-- An entry of the log has an owner that is bound. -/
theorem extract_owner_mem {supply : FreshNames} {queue : List Nested} {log : List Extraction}
    {b : Bindings} (e : extract supply queue = .ok (log, b)) {x : Extraction} (hx : x ∈ log) :
    x.owner ∈ b.names := by
  obtain ⟨place, hplace, owner, -⟩ := exists_of_forall₂_right (extract_places e) x hx
  obtain ⟨p, met, item⟩ := List.mem_flatMap.1 hplace
  obtain ⟨texts, body, -, bound, -⟩ := extract_bodies e (Nested.mem_pending.1 met)
  obtain ⟨r, -, same⟩ := List.mem_filterMap.1 item
  have own : place.1 = p.1 := by
    split at same
    · cases same
    · cases same
      rfl
  rw [owner, own]
  exact List.mem_map_of_mem bound

/-- How a type that is met is handled: its items are replaced from a supply in which all that it
refers to is in use, no text is dropped, and the types moved out of it are those that the log has
for its name. -/
structure Nested.Handled (log : List Extraction) (b : Bindings) (p : Nested) (supply : FreshNames)
    (h : Extracted) : Prop where
  stem : supply.stem = "t_"
  settled : p.2.Settled supply.used
  extracted : extractItems supply p.2.items = .ok h
  bound : b.lookup p.1 = some (p.2.refilled h.texts)
  logged : ∀ x, x ∈ log ∧ x.owner = p.1 ↔ x ∈ Extraction.all p.1 h.moved

/-- The type that is first in the queue is handled. -/
theorem Nested.handled_first {supply : FreshNames} {name : String} {t : Ty} {h : Extracted}
    {body : Body} {log : List Extraction} {b : Bindings} (stem : supply.stem = "t_")
    (settled : t.Settled supply.used) (e : extractItems supply t.items = .ok h)
    (made : t.withTexts h.texts = .ok body) (apart : ∀ x ∈ log, x.owner ≠ name) :
    Nested.Handled (Extraction.all name h.moved ++ log) ((name, body) :: b) (name, t) supply h := by
  refine ⟨stem, settled, e, ?_, fun x => ⟨?_, fun hx => ⟨List.mem_append_left _ hx, ?_⟩⟩⟩
  · rw [List.lookup_cons_self]
    refine congrArg some (Ty.eq_refilled made fun items union => ?_)
    subst union
    exact extractItems_nodup e stem settled.tidy.1 fun s => settled.known_name
  · rintro ⟨hx, owner⟩
    exact (List.mem_append.1 hx).resolve_right fun later => apart x later owner
  · obtain ⟨q, -, rfl⟩ := List.mem_map.1 hx
    rfl

/-- What is handled later is so when the first type of the queue has been handled. -/
theorem Nested.Handled.later {name : String} {body : Body} {moved : List Nested}
    {log : List Extraction} {b : Bindings} {p : Nested} {supply : FreshNames} {h : Extracted}
    (handled : Nested.Handled log b p supply h) (other : p.1 ≠ name) :
    Nested.Handled (Extraction.all name moved ++ log) ((name, body) :: b) p supply h := by
  refine ⟨handled.stem, handled.settled, handled.extracted, ?_, fun x => ?_⟩
  · rw [List.lookup_cons, beq_false_of_ne other]
    exact handled.bound
  · rw [← handled.logged x, List.mem_append]
    refine and_congr_left fun owner => or_iff_right fun first => other ?_
    obtain ⟨q, -, rfl⟩ := List.mem_map.1 first
    exact owner.symm

/-- All types that are met are handled, if those in the queue are settled. -/
theorem extract_handled {supply : FreshNames} {queue : List Nested} {log : List Extraction}
    {b : Bindings} (e : extract supply queue = .ok (log, b)) (stem : supply.stem = "t_")
    (nodup : b.names.Nodup) (settled : ∀ p ∈ queue, p.2.Settled supply.used) {p : Nested}
    (met : Nested.Met queue log p) : ∃ supply' h, Nested.Handled log b p supply' h := by
  induction e using extract_induction with
  | nil =>
    exact absurd met Nested.not_met_nil
  | cons supply name t rest h body log' b' e' made e'' _ ih =>
    have faithful := extractItems_faithful e'
    obtain ⟨once, nodup'⟩ := List.nodup_cons.1 nodup
    have kept : ∀ x ∈ supply.used, x ∈ h.supply.used := fun x hx => (faithful.used x).2 (Or.inl hx)
    have first : t.Settled supply.used := settled (name, t) List.mem_cons_self
    have settled' : ∀ q ∈ rest ++ h.moved, q.2.Settled h.supply.used := by
      intro q hq
      rcases List.mem_append.1 hq with hq | hq
      · exact (settled q (List.mem_cons_of_mem _ hq)).mono kept
      · obtain ⟨r, item, typed⟩ := extractItems_moved e' q hq
        exact (first.mono kept).nested item typed
          ((faithful.used q.1).2 (Or.inr (List.mem_map_of_mem hq)))
    rcases Nested.met_cons_cases met with rfl | met'
    · refine ⟨supply, h, Nested.handled_first stem first e' made fun x hx same => once ?_⟩
      exact same ▸ extract_owner_mem e'' hx
    · obtain ⟨supply', h', handled⟩ := ih (faithful.stem.trans stem) nodup' settled' met'
      refine ⟨supply', h', handled.later fun same => once ?_⟩
      exact same ▸ Bindings.mem_names_of_lookup handled.bound

/-! ### Putting back what was moved out -/

namespace Bindings

mutual

/-- The type with the name `s` is as written, but every builder in it is replaced by the type that
it gives for the name that stands in its place. -/
inductive Resolves (b : Bindings) : String → Ty → Ty → Prop
  | value (s tag : String) : Resolves b s (.value tag) (.value tag)
  | product {s : String} {texts : List String} {items items' : List Ref}
      (bound : b.lookup s = some (.product texts)) (each : ResolvesAll b texts items items') :
      Resolves b s (.product items) (.product items')
  | union {s : String} {texts : List String} {items items' : List Ref}
      (bound : b.lookup s = some (.union texts)) (each : ResolvesAll b texts items items') :
      Resolves b s (.union items) (.union items')

/-- The same for items in whose places texts stand. -/
inductive ResolvesAll (b : Bindings) : List String → List Ref → List Ref → Prop
  | nil : ResolvesAll b [] [] []
  | name {s : String} {texts : List String} {items items' : List Ref}
      (others : ResolvesAll b texts items items') :
      ResolvesAll b (s :: texts) (.name s :: items) (.name s :: items')
  | type {x : String} {r : Ref} {t t' : Ty} {texts : List String} {items items' : List Ref}
      (typed : r.TypedAs x t) (inner : Resolves b x t t')
      (others : ResolvesAll b texts items items') :
      ResolvesAll b (x :: texts) (r :: items) (.inline t' :: items')

end

mutual

/-- The body of `s` as a type, in which every name that was introduced in it stands for its own
body, and so on. -/
inductive Restores (b : Bindings) (log : List Extraction) : String → Ty → Prop
  | value {s tag : String} (bound : b.lookup s = some (.value tag)) : Restores b log s (.value tag)
  | product {s : String} {texts : List String} {items : List Ref}
      (bound : b.lookup s = some (.product texts)) (each : RestoresAll b log s texts items) :
      Restores b log s (.product items)
  | union {s : String} {texts : List String} {items : List Ref}
      (bound : b.lookup s = some (.union texts)) (each : RestoresAll b log s texts items) :
      Restores b log s (.union items)

/-- The same for the texts in the body of `s`. -/
inductive RestoresAll (b : Bindings) (log : List Extraction) :
    String → List String → List Ref → Prop
  | nil (s : String) : RestoresAll b log s [] []
  | kept {s x : String} {texts : List String} {items : List Ref} (old : ∀ t, ⟨x, t, s⟩ ∉ log)
      (others : RestoresAll b log s texts items) :
      RestoresAll b log s (x :: texts) (.name x :: items)
  | opened {s x : String} {t t' : Ty} {texts : List String} {items : List Ref}
      (introduced : ⟨x, t, s⟩ ∈ log) (inner : Restores b log x t')
      (others : RestoresAll b log s texts items) :
      RestoresAll b log s (x :: texts) (.inline t' :: items)

end

variable {b : Bindings} {log : List Extraction}

mutual

/-- There is one way of putting back what was moved out. -/
theorem Restores.unique {s : String} {t t' : Ty} : b.Restores log s t → b.Restores log s t' → t = t'
  | .value bound, second => by
    cases second with
    | value bound' => rw [bound] at bound'; cases bound'; rfl
    | product bound' => rw [bound] at bound'; cases bound'
    | union bound' => rw [bound] at bound'; cases bound'
  | .product bound each, second => by
    cases second with
    | value bound' => rw [bound] at bound'; cases bound'
    | product bound' each' =>
      rw [bound] at bound'
      cases bound'
      rw [each.unique each']
    | union bound' => rw [bound] at bound'; cases bound'
  | .union bound each, second => by
    cases second with
    | value bound' => rw [bound] at bound'; cases bound'
    | product bound' => rw [bound] at bound'; cases bound'
    | union bound' each' =>
      rw [bound] at bound'
      cases bound'
      rw [each.unique each']

/-- Items are restored in one way only. -/
theorem RestoresAll.unique {s : String} {texts : List String} {items items' : List Ref} :
    b.RestoresAll log s texts items → b.RestoresAll log s texts items' → items = items'
  | .nil _, .nil _ => rfl
  | .kept _ others, .kept _ others' => by rw [others.unique others']
  | .kept old _, .opened introduced _ _ => absurd introduced (old _)
  | .opened introduced _ _, .kept old _ => absurd introduced (old _)
  | .opened _ inner others, .opened _ inner' others' => by
    rw [inner.unique inner', others.unique others']

end

/-- The items of one type are put back if the types moved out of it are. -/
theorem exists_restoresAll {supply : FreshNames} {items : List Ref} {h : Extracted} {owner : String}
    (e : extractItems supply items = .ok h)
    (old : ∀ s, .name s ∈ items → ∀ t, ⟨s, t, owner⟩ ∉ log)
    (moved : ∀ p ∈ h.moved, ⟨p.1, p.2, owner⟩ ∈ log ∧
      ∃ t, b.Resolves p.1 p.2 t ∧ b.Restores log p.1 t) :
    ∃ items', b.ResolvesAll h.texts items items' ∧ b.RestoresAll log owner h.texts items' := by
  induction items generalizing supply h with
  | nil =>
    cases e
    exact ⟨[], .nil, .nil owner⟩
  | cons r rest ih =>
    have old' : ∀ s, .name s ∈ rest → ∀ t, ⟨s, t, owner⟩ ∉ log := fun s hs =>
      old s (List.mem_cons_of_mem _ hs)
    obtain ⟨s, h', rfl, e', rfl⟩ | ⟨t, h', typed, e', rfl⟩ := extractItems_cons_cases e
    · obtain ⟨items', resolves, restores⟩ := ih e' old' moved
      exact ⟨_, .name resolves, .kept (old s List.mem_cons_self) restores⟩
    · obtain ⟨⟨introduced, t', resolved, restored⟩, others⟩ := List.forall_mem_cons.1 moved
      obtain ⟨items', resolves, restores⟩ := ih e' old' others
      exact ⟨_, .type typed resolved resolves, .opened introduced restored restores⟩

/-- A type is put back if its items are. -/
theorem exists_restores {s : String} {t : Ty} {texts : List String} {items : List Ref}
    (bound : b.lookup s = some (t.refilled texts)) (resolves : b.ResolvesAll texts t.items items)
    (restores : b.RestoresAll log s texts items) :
    ∃ t', b.Resolves s t t' ∧ b.Restores log s t' := by
  cases t with
  | value tag => exact ⟨_, .value s tag, .value bound⟩
  | product refs => exact ⟨_, .product bound resolves, .product bound restores⟩
  | union refs => exact ⟨_, .union bound resolves, .union bound restores⟩

end Bindings

/-- A type in a queue weighs no more than the queue. -/
theorem Nested.weight_le_weights {p : Nested} {queue : List Nested} (h : p ∈ queue) :
    p.2.weight ≤ Nested.weights queue := by
  induction queue with
  | nil => cases h
  | cons q rest ih =>
    obtain ⟨name, t⟩ := q
    rw [Nested.weights]
    rcases List.mem_cons.1 h with rfl | h
    · exact Nat.le_add_right _ _
    · exact (ih h).trans (Nat.le_add_left _ _)

/-- A type that was handled is put back if the types moved out of it are. A text that stood in it
before is none of the names that were handed out for it. -/
theorem Nested.Handled.exists_restores {log : List Extraction} {b : Bindings} {p : Nested}
    {supply : FreshNames} {h : Extracted} (handled : Nested.Handled log b p supply h)
    (moved : ∀ q ∈ h.moved, ∃ t, b.Resolves q.1 q.2 t ∧ b.Restores log q.1 t) :
    ∃ t, b.Resolves p.1 p.2 t ∧ b.Restores log p.1 t := by
  have names := (extractItems_faithful handled.extracted).names
  have old : ∀ s, .name s ∈ p.2.items → ∀ t, ⟨s, t, p.1⟩ ∉ log := by
    intro s item t logged
    obtain ⟨q, hq, same⟩ := List.mem_map.1 ((handled.logged _).1 ⟨logged, rfl⟩)
    obtain ⟨rfl, -⟩ := Extraction.mk.inj same
    exact names.not_known handled.stem (List.mem_map_of_mem hq) (handled.settled.known_name item)
  have introduced : ∀ q ∈ h.moved, ⟨q.1, q.2, p.1⟩ ∈ log := fun q hq =>
    ((handled.logged ⟨q.1, q.2, p.1⟩).2 (List.mem_map_of_mem hq)).1
  obtain ⟨items, resolves, restores⟩ := Bindings.exists_restoresAll handled.extracted old
    fun q hq => ⟨introduced q hq, moved q hq⟩
  exact Bindings.exists_restores handled.bound resolves restores

/-- All types that are met are put back: those moved out of one are smaller. -/
theorem exists_restores_of_handled {queue : List Nested} {log : List Extraction} {b : Bindings}
    (handled : ∀ p, Nested.Met queue log p → ∃ supply h, Nested.Handled log b p supply h)
    (p : Nested) (met : Nested.Met queue log p) :
    ∃ t, b.Resolves p.1 p.2 t ∧ b.Restores log p.1 t := by
  obtain ⟨supply, h, this⟩ := handled p met
  refine this.exists_restores fun q hq => ?_
  have logged := ((this.logged ⟨q.1, q.2, p.1⟩).2 (List.mem_map_of_mem hq)).1
  exact exists_restores_of_handled handled q (Or.inr ⟨p.1, logged⟩)
termination_by p.2.weight
decreasing_by
  have inside := Nested.weight_le_weights hq
  have items := weights_extractItems this.extracted
  have smaller := Ty.weights_items_lt p.2
  omega

/-! ### Naming the types nested in definitions -/

/-- What naming the types nested in definitions comes to, with what is written to the log and the
bindings that are left. -/
structure Definition.Hoisted (ds : List Definition) (log : List Extraction) (b : Bindings) :
    Prop where
  /-- The queue ends: no more types are taken from it than are written in the definitions. -/
  bounded : b.length ≤ Nested.weights (ds.map fun d => (d.name, d.type))
  /-- Bound are the names given and behind them those of the log, no two of them the same. -/
  names : b.names = ds.map (·.name) ++ log.map (·.name) ∧ b.names.Nodup
  /-- Each name of the log has the least number that is not in use. -/
  least : LeastUnused "t_" (ds.map (·.name)) (log.map (·.name))
  /-- The log has one entry for every nested item that is met, in the order of the queue. -/
  order : List.Forall₂ Extraction.IsFor
    ((Nested.pending (ds.map fun d => (d.name, d.type)) log).flatMap Nested.places) log
  /-- Every type that is met is bound with all its items in their places, a text for each. -/
  items : ∀ p, Nested.Met (ds.map fun d => (d.name, d.type)) log p →
    ∃ texts, b.lookup p.1 = some (p.2.refilled texts) ∧
      List.Forall₂ (Ref.BecomesIn log p.1) p.2.items texts
  /-- If the types moved out are put back there is one type that comes of it, which is the type that
  was met with what its builders give. -/
  restored : ∀ p, Nested.Met (ds.map fun d => (d.name, d.type)) log p →
    ∃ t, b.Resolves p.1 p.2 t ∧ ∀ u, b.Restores log p.1 u ↔ u = t

section

variable {defs : List (String × Expr)} {ds : List Definition}
  (literals : ∀ s ∈ Expr.literalsAll (defs.map (·.2)), isTag s = true ∨ s ∈ defs.map (·.1))
  (made : Definition.makeAll defs = .ok ds) (distinct : (ds.map (·.name)).Nodup)
include literals made distinct

/-- All types that are met in definitions are handled. -/
theorem Definition.exists_handled {log : List Extraction} {b : Bindings}
    (named : naming ds = .ok (log, b)) (p : Nested)
    (met : Nested.Met (ds.map fun d => (d.name, d.type)) log p) :
    ∃ supply h, Nested.Handled log b p supply h := by
  refine extract_handled named rfl (nodup_of_definitions named distinct) (fun q hq => ?_) met
  obtain ⟨d, hd, rfl⟩ := List.mem_map.1 hq
  exact (Definition.settled literals made hd).mono fun x => List.mem_eraseDups.2

/-- Where naming the nested types ends, its log and bindings are as they should be. -/
theorem Definition.hoisted {log : List Extraction} {b : Bindings}
    (named : naming ds = .ok (log, b)) : Hoisted ds log b := by
  have handled := exists_handled literals made distinct named
  constructor
  case bounded => exact extract_length_le named
  case names => exact ⟨names_of_definitions named, nodup_of_definitions named distinct⟩
  case least =>
    have least := extract_leastUnused named (FreshNames.dense_ofUsed _ _)
    exact least.congr fun x => List.mem_eraseDups
  case order => exact extract_places named
  case items =>
    intro p met
    obtain ⟨supply, h, handled⟩ := handled p met
    refine ⟨h.texts, handled.bound, (extractItems_becomes handled.extracted p.1).imp ?_⟩
    exact fun r x => Or.imp_right fun ⟨t, typed, moved⟩ =>
      ⟨t, typed, ((handled.logged _).2 moved).1⟩
  case restored =>
    intro p met
    obtain ⟨t, resolves, restores⟩ := exists_restores_of_handled handled p met
    refine ⟨t, resolves, fun u => ⟨fun restores' => restores'.unique restores, ?_⟩⟩
    rintro rfl
    exact restores

end

/-- Definitions with distinct names refer to nothing but their own names, names that their binders
receive, and tags. Then naming nested types ends: either a builder that is met complains, which is
what normalisation reports, or there are bindings, with which it goes on, and what was moved out can
be put back. -/
theorem naming_reversible {defs : List (String × Expr)} {ds : List Definition}
    (literals : ∀ s ∈ Expr.literalsAll (defs.map (·.2)), isTag s = true ∨ s ∈ defs.map (·.1))
    (made : Definition.makeAll defs = .ok ds) (distinct : (ds.map (·.name)).Nodup) :
    (∃ log e, Definition.naming ds = .error (log, e) ∧
      Grammar.ofDefinitions? ds = (log.map .extracted, .error e) ∧
      ∃ p builder x, Nested.Met (ds.map fun d => (d.name, d.type)) log p ∧
        .deferred builder ∈ p.2.items ∧ builder.typeNamed x = .error e) ∨
    ∃ log b, Definition.naming ds = .ok (log, b) ∧
      Grammar.ofDefinitions? ds = (log.map .extracted ++ (Grammar.ofBindings? ds.length b).1,
        (Grammar.ofBindings? ds.length b).2) ∧
      Definition.Hoisted ds log b := by
  rcases named : Definition.naming ds with ⟨log, e⟩ | ⟨log, b⟩
  · have written := Definition.written_of_makeAll made
    obtain ⟨-, complains⟩ := extract_error named fun p hp => by
      obtain ⟨d, hd, rfl⟩ := List.mem_map.1 hp
      exact (written d hd).made
    exact Or.inl ⟨log, e, rfl, Definition.ofDefinitions?_of_error distinct named, complains⟩
  · exact Or.inr ⟨log, b, rfl, Definition.ofDefinitions?_of_ok distinct named,
      Definition.hoisted literals made distinct named⟩

/-- The bindings of the pair of a tag and trees, before unions are opened. -/
def knottedBindings : Bindings :=
  [("K", .product ["t_0", "v_y"]), ("t_0", .union ["v_x", "t_1"]), ("t_1", .product ["t_0", "t_0"])]

/-- The log of naming its trees and the pairs of trees. -/
def knottedLog : List Extraction :=
  [⟨"t_0", .union [.name "v_x", .inline (.product [.name "t_0", .name "t_0"])], "K"⟩,
    ⟨"t_1", .product [.name "t_0", .name "t_0"], "t_0"⟩]

/-- The trees and the pairs of trees get the first two names. -/
theorem knotted_named :
    Definition.naming knottedDefinitions = .ok (knottedLog, knottedBindings) := by
  cbv

/-- Naming the types nested in the pair can be undone. -/
theorem naming_reversible_knotted :
    Definition.Hoisted knottedDefinitions knottedLog knottedBindings := by
  rcases naming_reversible (by simp [knotted, Expr.literalsAll, Expr.literals, isTag]) knotted_made
    (by decide) with ⟨log, e, failed, -⟩ | ⟨log, b, named, -, hoisted⟩
  · rw [knotted_named] at failed
    cases failed
  · rw [knotted_named] at named
    cases named
    exact hoisted

end TreeGrammar
