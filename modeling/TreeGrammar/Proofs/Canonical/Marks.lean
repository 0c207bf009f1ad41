import Mathlib
import TreeGrammar.Proofs.Canonical.Quotation
import TreeGrammar.Ref

/-!
# The mark of a builder

The mark of a builder tells which binder it comes from and which names the binders around it have
got. Each character of the identity is written with six digits, and the identity is a number in
front of quoted texts.

* `Builder.label`, `Builder.scope`: what a builder is told by.
* `Builder.label_scope_of_mark`, `Builder.mark_eq_iff`: builders have one mark if they agree in both.
-/

namespace TreeGrammar

open Text

/-- Six hexadecimal digits tell a character. -/
theorem hexDigits_six_inj {c d : Char} (h : hexDigits 6 c.toNat = hexDigits 6 d.toNat) : c = d := by
  have bound : ∀ c : Char, c.toNat < 16 ^ 6 := by
    intro c
    have value : c.val.toNat = c.toNat := rfl
    rcases c.valid with h | h
    · rw [value] at h
      omega
    · rw [value] at h
      omega
  have same := congrArg digitsValue h
  rw [digitsValue_hexDigits, digitsValue_hexDigits, Nat.mod_eq_of_lt (bound c),
    Nat.mod_eq_of_lt (bound d)] at same
  exact Char.toNat_inj.1 same

/-- Six digits for each character determine the characters. -/
theorem flatMap_hexDigits_inj {cs ds : List Char}
    (h : (cs.flatMap fun c => hexDigits 6 c.toNat) = ds.flatMap fun c => hexDigits 6 c.toNat) :
    cs = ds := by
  induction cs generalizing ds with
  | nil =>
    cases ds with
    | nil => rfl
    | cons d ds =>
      have length := congrArg List.length h
      simp only [List.flatMap_nil, List.flatMap_cons, List.length_nil, List.length_append,
        length_hexDigits] at length
      omega
  | cons c cs ih =>
    cases ds with
    | nil =>
      have length := congrArg List.length h
      simp only [List.flatMap_nil, List.flatMap_cons, List.length_nil, List.length_append,
        length_hexDigits] at length
      omega
    | cons d ds =>
      rw [List.flatMap_cons, List.flatMap_cons] at h
      obtain ⟨first, rest⟩ := List.append_inj h (by rw [length_hexDigits, length_hexDigits])
      rw [hexDigits_six_inj first, ih rest]

/-! ### Numbers in front of quoted texts -/

/-- There is no quote in a number, so the first quote ends the label. -/
theorem quote_notMem_toString (n : Nat) : '"' ∉ (toString n).toList := by
  intro h
  rw [Nat.toString_eq_ofList_toDigits, String.toList_ofList] at h
  exact absurd (Nat.isDigit_of_mem_toDigits (by decide) (by decide) h) (by decide)

/-- Several quoted texts in a row. -/
def quotedRow (texts : List String) : List Char :=
  texts.flatMap fun s => (quote s).toList

/-- Equation lemma: the first text stands between quotes, and the others follow. -/
theorem quotedRow_cons (s : String) (texts : List String) :
    quotedRow (s :: texts) =
      '"' :: (s.toList.flatMap Quoted.escape ++ ['"'] ++ quotedRow texts) := by
  rw [quotedRow, List.flatMap_cons, toList_quote]
  rfl

/-- Quoted texts in a row determine the texts. -/
theorem quotedRow_inj {texts texts' : List String} (h : quotedRow texts = quotedRow texts') :
    texts = texts' := by
  induction texts generalizing texts' with
  | nil =>
    cases texts' with
    | nil => rfl
    | cons s rest =>
      rw [quotedRow_cons] at h
      cases h
  | cons s rest ih =>
    cases texts' with
    | nil =>
      rw [quotedRow_cons] at h
      cases h
    | cons s' rest' =>
      obtain ⟨first, others⟩ : s = s' ∧ quotedRow rest = quotedRow rest' := quote_append_inj h
      rw [first, ih others]

/-- A row of quoted texts begins with a quote. -/
theorem eq_nil_of_quotedRow {texts : List String} {cs ds : List Char}
    (h : quotedRow texts = cs ++ ds) (hc : '"' ∉ cs) : cs = [] := by
  cases cs with
  | nil => rfl
  | cons c cs =>
    cases texts with
    | nil => cases h
    | cons s rest =>
      rw [quotedRow_cons, List.cons_append, List.cons.injEq] at h
      rw [← h.1] at hc
      exact absurd List.mem_cons_self hc

/-- What stands in front of a row of quoted texts, and the row, are determined by both together. -/
theorem append_quotedRow_inj {cs ds : List Char} {texts texts' : List String} (hc : '"' ∉ cs)
    (hd : '"' ∉ ds) (h : cs ++ quotedRow texts = ds ++ quotedRow texts') :
    cs = ds ∧ texts = texts' := by
  rcases List.append_eq_append_iff.1 h with ⟨c, rfl, row⟩ | ⟨c, rfl, row⟩
  · obtain rfl := eq_nil_of_quotedRow row fun h => hd (List.mem_append_right _ h)
    exact ⟨(List.append_nil _).symm, quotedRow_inj row⟩
  · obtain rfl := eq_nil_of_quotedRow row fun h => hc (List.mem_append_right _ h)
    exact ⟨List.append_nil _, (quotedRow_inj row).symm⟩

namespace Builder

/-- The binder that a builder comes from. -/
def label : Builder → Nat
  | written label _ _ => label
  | list label _ _ => label

/-- The names of the binders around a builder. -/
def scope : Builder → List String
  | written _ scope _ => scope
  | list _ scope _ => scope

/-- The identity of a builder is its label with the quoted names of its scope behind it. -/
theorem toList_identity (b : Builder) :
    b.identity.toList = (toString b.label).toList ++ quotedRow b.scope := by
  cases b with
  | written label scope body =>
    rw [identity, String.toList_append, String.toList_join, List.flatMap_map]
    rfl
  | list label scope elem =>
    rw [identity, String.toList_append, String.toList_join, List.flatMap_map]
    rfl

/-- Builders with one mark come from one binder, and the binders around it have the same names. -/
theorem label_scope_of_mark {b b' : Builder} (h : b.mark = b'.mark) :
    b.label = b'.label ∧ b.scope = b'.scope := by
  have chars := congrArg String.toList h
  simp only [mark, String.toList_append, String.toList_ofList, List.append_assoc] at chars
  have digits := flatMap_hexDigits_inj (List.append_cancel_right (List.append_cancel_left chars))
  rw [toList_identity, toList_identity] at digits
  obtain ⟨number, scopes⟩ :=
    append_quotedRow_inj (quote_notMem_toString _) (quote_notMem_toString _) digits
  exact ⟨Nat.repr_inj.1 (String.toList_inj.1 number), scopes⟩

/-- When two builders have one mark. -/
theorem mark_eq_iff {b b' : Builder} :
    b.mark = b'.mark ↔ b.label = b'.label ∧ b.scope = b'.scope := by
  refine ⟨label_scope_of_mark, fun ⟨label, scope⟩ => ?_⟩
  have same : b.identity.toList = b'.identity.toList := by
    rw [toList_identity, toList_identity, label, scope]
  rw [mark, mark, same]

end Builder

end TreeGrammar
