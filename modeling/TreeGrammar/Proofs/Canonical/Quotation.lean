import Mathlib.Algebra.Group.Nat.Defs
import Mathlib.Data.List.Basic
import TreeGrammar.Text.Quoted

/-!
# Quoted texts can be read back

The written forms of characters are a prefix code, and none of them begins with a quote. So a quoted
text ends where its second unescaped quote stands, whatever follows, and two texts with one quoted
form are the same text.

* `unescape`: reads one character back from its written form.
* `unescape_escape`: what is read is the character that was written, with the rest left over.
* `quote_append_inj`: a quoted text and what follows it are determined by both together.
-/

namespace TreeGrammar.Text

/-! ### Hexadecimal digits -/

/-- The value of a hexadecimal digit as `hexDigit` writes it. -/
def digitValue (c : Char) : Nat :=
  if c.toNat < 58 then c.toNat - 48 else c.toNat - 87

/-- The number that hexadecimal digits stand for, the most significant digit first. -/
def digitsValue (cs : List Char) : Nat :=
  cs.foldl (fun n c => 16 * n + digitValue c) 0

/-- A digit has the value that it is written for. -/
theorem digitValue_hexDigit : ∀ n < 16, digitValue (hexDigit n) = n := by decide

/-- No digit is a closing bracket. -/
theorem hexDigit_ne_paren : ∀ n < 16, hexDigit n ≠ ')' := by decide

/-- Equation lemma: one more digit behind the others multiplies their value by sixteen. -/
theorem digitsValue_concat (cs : List Char) (c : Char) :
    digitsValue (cs ++ [c]) = 16 * digitsValue cs + digitValue c := by
  simp [digitsValue]

/-- The last `w` digits of a number read back as its remainder. -/
theorem digitsValue_hexDigits (w n : Nat) : digitsValue (hexDigits w n) = n % 16 ^ w := by
  induction w generalizing n with
  | zero => simp [hexDigits, digitsValue, Nat.mod_one]
  | succ w ih =>
    rw [hexDigits, digitsValue_concat, ih, digitValue_hexDigit _ (Nat.mod_lt _ (by decide))]
    rw [Nat.pow_succ', Nat.mod_mul]
    omega

/-- There is no closing bracket among digits. -/
theorem paren_notMem_hexDigits (w n : Nat) : ')' ∉ hexDigits w n := by
  induction w generalizing n with
  | zero => simp [hexDigits]
  | succ w ih =>
    simp only [hexDigits, List.mem_append, List.mem_singleton, not_or]
    exact ⟨ih _, (hexDigit_ne_paren _ (Nat.mod_lt _ (by decide))).symm⟩

namespace Quoted

/-! ### Characters -/

/-- Reads the character that a 16-bit unit stands for, alone or as the upper half of a pair. The
characters given come after the letter `u`. -/
def readUnits (cs : List Char) : Char × List Char :=
  let high := digitsValue (cs.take 4)
  if 0xd800 ≤ high ∧ high < 0xdc00 then
    let low := digitsValue ((cs.drop 6).take 4)
    (Char.ofNat (0x10000 + (high - 0xd800) * 0x400 + (low - 0xdc00)), cs.drop 10)
  else (Char.ofNat high, cs.drop 4)

/-- Reads one character from its written form, and returns what is left. -/
def unescape : List Char → Option (Char × List Char)
  | '\\' :: '"' :: rest => some ('"', rest)
  | '\\' :: '\\' :: rest => some ('\\', rest)
  | '\\' :: 'n' :: rest => some ('\n', rest)
  | '\\' :: 'r' :: rest => some ('\r', rest)
  | '\\' :: 't' :: rest => some ('\t', rest)
  | '\\' :: 'b' :: rest => some ('\x08', rest)
  | '\\' :: 'f' :: rest => some ('\x0c', rest)
  | '\\' :: 'u' :: rest => some (readUnits rest)
  | c :: rest => some (c, rest)
  | [] => none

/-- Four digits that are not those of an upper half are read as the character they stand for. -/
theorem readUnits_hexDigits {n : Nat} (small : n < 0x10000)
    (single : ¬(0xd800 ≤ n ∧ n < 0xdc00)) (rest : List Char) :
    readUnits (hexDigits 4 n ++ rest) = (Char.ofNat n, rest) := by
  have take : (hexDigits 4 n ++ rest).take 4 = hexDigits 4 n := by
    rw [List.take_left' (length_hexDigits 4 n)]
  have drop : (hexDigits 4 n ++ rest).drop 4 = rest := by
    rw [List.drop_left' (length_hexDigits 4 n)]
  have value : digitsValue (hexDigits 4 n) = n := by
    rw [digitsValue_hexDigits, Nat.mod_eq_of_lt (by omega)]
  simp only [readUnits, take, drop, value, if_neg single]

/-- The digits of an upper half and of a lower one are read together. -/
theorem readUnits_pair {high low : Nat} (h₁ : 0xd800 ≤ high) (h₂ : high < 0xdc00)
    (h₃ : low < 0x10000) (rest : List Char) :
    readUnits (hexDigits 4 high ++ (unit16 low ++ rest)) =
      (Char.ofNat (0x10000 + (high - 0xd800) * 0x400 + (low - 0xdc00)), rest) := by
  have take : (hexDigits 4 high ++ (unit16 low ++ rest)).take 4 = hexDigits 4 high := by
    rw [List.take_left' (length_hexDigits 4 high)]
  have value : digitsValue (hexDigits 4 high) = high := by
    rw [digitsValue_hexDigits, Nat.mod_eq_of_lt (by omega)]
  have behind : (hexDigits 4 high ++ (unit16 low ++ rest)).drop 6 = hexDigits 4 low ++ rest := by
    rw [List.drop_append, length_hexDigits, List.drop_of_length_le (by simp [length_hexDigits])]
    rfl
  have lower : digitsValue (hexDigits 4 low) = low := by
    rw [digitsValue_hexDigits, Nat.mod_eq_of_lt (by omega)]
  have left : (hexDigits 4 high ++ (unit16 low ++ rest)).drop 10 = rest := by
    rw [show (10 : Nat) = 6 + 4 from rfl, ← List.drop_drop, behind,
      List.drop_left' (length_hexDigits 4 low)]
  simp only [readUnits, take, value, behind, left, if_pos (And.intro h₁ h₂),
    List.take_left' (length_hexDigits 4 low), lower]

/-- A character is read back from its written form, whatever follows it. -/
theorem unescape_escape (c : Char) (rest : List Char) :
    unescape (escape c ++ rest) = some (c, rest) := by
  have valid := c.valid
  have value : c.val.toNat = c.toNat := rfl
  unfold escape
  split_ifs with h₁ h₂ h₃ h₄ h₅ h₆ h₇ h₈ h₉
  all_goals try subst c; rfl
  · -- a printable character stands for itself
    simp only [List.cons_append, List.nil_append]
    rw [unescape.eq_def]
    split <;> simp_all
  · -- a character of the basic plane is no surrogate
    have single : ¬(0xd800 ≤ c.toNat ∧ c.toNat < 0xdc00) := by
      rcases valid with h | h
      · rw [value] at h; omega
      · rw [value] at h; omega
    rw [unit16, List.cons_append, List.cons_append, unescape,
      readUnits_hexDigits h₉ single, Char.ofNat_toNat]
  · have bound : c.toNat < 0x110000 := by
      rcases valid with h | h <;> rw [value] at h <;> omega
    rw [List.append_assoc, unit16, List.cons_append, List.cons_append, unescape,
      readUnits_pair (by omega) (by omega) (by omega)]
    have : 0x10000 + (0xd800 + (c.toNat - 0x10000) / 0x400 - 0xd800) * 0x400 +
        (0xdc00 + c.toNat % 0x400 - 0xdc00) = c.toNat := by omega
    rw [this, Char.ofNat_toNat]

/-- No written form begins with a quote. -/
theorem escape_ne_quote (c : Char) (u v : List Char) : escape c ++ u ≠ '"' :: v := by
  intro h
  have back := unescape_escape c u
  rw [h, show unescape ('"' :: v) = some ('"', v) from rfl] at back
  obtain ⟨rfl, -⟩ := Prod.mk.inj (Option.some.inj back)
  cases h

end Quoted

open Quoted

/-- The written form of a text ends at the first quote that no backslash precedes. -/
theorem flatMap_escape_inj {s t u v : List Char}
    (h : s.flatMap escape ++ '"' :: u = t.flatMap escape ++ '"' :: v) : s = t ∧ u = v := by
  induction s generalizing t with
  | nil =>
    cases t with
    | nil => simpa using h
    | cons d t =>
      rw [List.flatMap_cons, List.append_assoc] at h
      exact absurd h.symm (escape_ne_quote d _ u)
  | cons c s ih =>
    cases t with
    | nil =>
      rw [List.flatMap_cons, List.append_assoc] at h
      exact absurd h (escape_ne_quote c _ v)
    | cons d t =>
      rw [List.flatMap_cons, List.flatMap_cons, List.append_assoc, List.append_assoc] at h
      have back := congrArg unescape h
      rw [unescape_escape, unescape_escape] at back
      simp only [Option.some.injEq, Prod.mk.injEq] at back
      obtain ⟨rfl, rfl⟩ := ih back.2
      exact ⟨by rw [back.1], rfl⟩

/-- A quoted text has its escaped characters between two quotes. -/
theorem toList_quote (s : String) :
    (quote s).toList = '"' :: (s.toList.flatMap escape ++ ['"']) := by
  rw [quote, String.toList_ofList]

/-- A quoted text and what follows it are determined by both together. -/
theorem quote_append_inj {s t : String} {u v : List Char}
    (h : (quote s).toList ++ u = (quote t).toList ++ v) : s = t ∧ u = v := by
  rw [toList_quote, toList_quote] at h
  simp only [List.cons_append, List.append_assoc, List.nil_append, List.cons.injEq,
    true_and] at h
  obtain ⟨e, rfl⟩ := flatMap_escape_inj h
  exact ⟨String.toList_inj.1 e, rfl⟩

/-- Texts with one quoted form are the same. -/
theorem quote_injective {s t : String} (h : quote s = quote t) : s = t :=
  (quote_append_inj (u := []) (v := []) (by rw [h])).1

end TreeGrammar.Text
