import Lox.Text.Quoted
import Mathlib.Data.Nat.Digits.Defs

namespace Lox.Text
set_option autoImplicit true

def hexDigit (c : Char) : Nat :=
  if c.isDigit then c.toNat - '0'.toNat else c.toNat - 'a'.toNat + 10

def hexValue (cs : List Char) : Nat := cs.foldl (fun n c => 16 * n + hexDigit c) 0

theorem hexDigit_digitChar : ∀ n < 16, hexDigit n.digitChar = n := by decide

theorem toDigits_induction {motive : Nat → List Char → Prop} {b : Nat} (hb : 1 < b)
    (digit : ∀ n < b, motive n [n.digitChar])
    (more : ∀ n, b ≤ n → motive (n / b) (Nat.toDigits b (n / b)) →
      motive n (Nat.toDigits b (n / b) ++ [(n % b).digitChar])) (n : Nat) :
    motive n (Nat.toDigits b n) := by
  induction n using Nat.strongRecOn with
  | ind n ih =>
    by_cases h : n < b
    · rw [Nat.toDigits_of_lt_base h]
      exact digit n h
    · have hle := Nat.le_of_not_lt h
      rw [Nat.toDigits_of_base_le hb hle]
      exact more n hle (ih _ (Nat.div_lt_self (by omega) hb))

theorem hexValue_toDigits (n : Nat) : hexValue (Nat.toDigits 16 n) = n := by
  induction n using toDigits_induction (b := 16) (by decide) with
  | digit n h => simp [hexValue, hexDigit_digitChar n h]
  | more n h ih =>
    rw [hexValue] at ih ⊢
    rw [List.foldl_append, ih]
    simp only [List.foldl_cons, List.foldl_nil, hexDigit_digitChar _ (Nat.mod_lt n (by decide : 0 < 16))]
    omega

theorem hexValue_hex (width n : Nat) : hexValue (hex width n) = n := by
  have hzeros : ∀ k, (List.replicate k '0').foldl (fun n c => 16 * n + hexDigit c) 0 = 0 := by
    intro k
    induction k with
    | zero => rfl
    | succ k ih => exact ih
  rw [hex, hexValue, List.foldl_append, hzeros]
  exact hexValue_toDigits n

theorem length_hex (hwidth : 0 < width) (h : n < 16 ^ width) : (hex width n).length = width := by
  have hle := (Nat.length_toDigits_le_iff (by decide : 1 < 16) hwidth).2 h
  rw [hex, List.length_append, List.length_replicate]
  omega

theorem mem_toDigits (h : c ∈ Nat.toDigits 16 n) : ∃ k < 16, c = k.digitChar := by
  induction n using toDigits_induction (b := 16) (by decide) with
  | digit n hn => exact ⟨n, hn, List.mem_singleton.1 h⟩
  | more n hn ih =>
    rcases List.mem_append.1 h with h | h
    · exact ih h
    · exact ⟨n % 16, Nat.mod_lt n (by decide), List.mem_singleton.1 h⟩

theorem mem_hex (h : c ∈ hex width n) : ∃ k < 16, c = k.digitChar := by
  rcases List.mem_append.1 h with h | h
  · exact ⟨0, by decide, List.eq_of_mem_replicate h⟩
  · exact mem_toDigits h

/-- The character that a quoted text begins with, and what follows. -/
def unescape? : List Char → Option (Char × List Char)
  | '\\' :: 'n' :: rest => some ('\n', rest)
  | '\\' :: 'r' :: rest => some ('\r', rest)
  | '\\' :: 't' :: rest => some ('\t', rest)
  | '\\' :: 'x' :: rest => some (Char.ofNat (hexValue (rest.take 2)), rest.drop 2)
  | '\\' :: 'u' :: rest => some (Char.ofNat (hexValue (rest.take 4)), rest.drop 4)
  | '\\' :: 'U' :: rest => some (Char.ofNat (hexValue (rest.take 8)), rest.drop 8)
  | '\\' :: c :: rest => some (c, rest)
  | c :: rest => some (c, rest)
  | [] => none

def IsQuote (c : Char) : Prop := c = singleQuote ∨ c = doubleQuote

theorem isQuote_quoteFor (cs : List Char) : IsQuote (quoteFor cs) := by
  unfold quoteFor
  split
  · exact .inr rfl
  · exact .inl rfl

theorem take_hex (c : Char) (hwidth : 0 < width) (h : c.toNat < 16 ^ width) (rest : List Char) :
    (Char.ofNat (hexValue ((hex width c.toNat ++ rest).take width)),
      (hex width c.toNat ++ rest).drop width) = (c, rest) := by
  rw [List.take_left' (length_hex hwidth h), List.drop_left' (length_hex hwidth h), hexValue_hex,
    Char.ofNat_toNat]

theorem unescape?_plain (h : c ≠ '\\') (rest : List Char) :
    unescape? (c :: rest) = some (c, rest) := by
  unfold unescape?
  split <;> simp_all

theorem unescape?_escape (hq : IsQuote q) (c : Char) (rest : List Char) :
    unescape? (escape q c ++ rest) = some (c, rest) := by
  unfold escape
  split_ifs with hself hn hr ht hvisible hx hu
  · rcases hself with rfl | rfl
    · rcases hq with rfl | rfl <;> rfl
    · rfl
  · rw [hn]; rfl
  · rw [hr]; rfl
  · rw [ht]; rfl
  · exact unescape?_plain (fun h => hself (.inr h)) rest
  · exact congrArg some (take_hex c (by decide) hx rest)
  · exact congrArg some (take_hex c (by decide) hu rest)
  · exact congrArg some (take_hex c (by decide) c.val.toNat_lt rest)

theorem escape_ne_nil (q c : Char) : escape q c ≠ [] := by
  unfold escape
  split_ifs <;> exact List.cons_ne_nil _ _

theorem flatMap_escape_inj (hq : IsQuote q) {cs ds : List Char}
    (h : cs.flatMap (escape q) = ds.flatMap (escape q)) : cs = ds := by
  induction cs generalizing ds with
  | nil =>
    cases ds with
    | nil => rfl
    | cons d ds => exact absurd (List.append_eq_nil_iff.1 h.symm).1 (escape_ne_nil q d)
  | cons c cs ih =>
    cases ds with
    | nil => exact absurd (List.append_eq_nil_iff.1 h).1 (escape_ne_nil q c)
    | cons d ds =>
      have hread := congrArg unescape? h
      rw [List.flatMap_cons, List.flatMap_cons, unescape?_escape hq, unescape?_escape hq] at hread
      obtain ⟨rfl, hrest⟩ := Prod.mk.inj (Option.some.inj hread)
      rw [ih hrest]

/-- Different strings have different texts. -/
theorem quoted_injective : Function.Injective quoted := by
  intro s t h
  have hchars := String.ofList_inj.1 h
  obtain ⟨hquote, hbody⟩ := List.cons.inj hchars
  rw [hquote] at hbody
  have hescaped := List.append_cancel_right hbody
  exact String.toList_inj.1 (flatMap_escape_inj (isQuote_quoteFor _) hescaped)

/-- A text has no quote that is not behind a backslash. -/
inductive Quotable (q : Char) : List Char → Prop
  | nil : Quotable q []
  | plain (hq : c ≠ q) (hc : c ≠ '\\') (h : Quotable q cs) : Quotable q (c :: cs)
  | escaped (h : Quotable q cs) : Quotable q ('\\' :: c :: cs)

theorem IsQuote.ne_backslash (h : IsQuote q) : q ≠ '\\' := by
  rcases h with rfl | rfl <;> decide

theorem Quotable.cancel (hq : IsQuote q) (ha : Quotable q a) (hb : Quotable q b)
    (h : a ++ q :: r = b ++ q :: r') : a = b ∧ r = r' := by
  induction ha generalizing b with
  | nil =>
    cases hb with
    | nil => exact ⟨rfl, (List.cons.inj h).2⟩
    | plain hc => exact absurd (List.cons.inj h).1.symm hc
    | escaped => exact absurd (List.cons.inj h).1 hq.ne_backslash
  | plain hc hslash _ ih =>
    cases hb with
    | nil => exact absurd (List.cons.inj h).1 hc
    | plain _ _ hb =>
      obtain ⟨rfl, hrest⟩ := List.cons.inj h
      obtain ⟨rfl, rfl⟩ := ih hb hrest
      exact ⟨rfl, rfl⟩
    | escaped => exact absurd (List.cons.inj h).1 hslash
  | escaped _ ih =>
    cases hb with
    | nil => exact absurd (List.cons.inj h).1.symm hq.ne_backslash
    | plain _ hslash => exact absurd (List.cons.inj h).1.symm hslash
    | escaped hb =>
      obtain ⟨rfl, hrest⟩ := List.cons.inj (List.cons.inj h).2
      obtain ⟨rfl, rfl⟩ := ih hb hrest
      exact ⟨rfl, rfl⟩

theorem Quotable.append (ha : Quotable q a) (hb : Quotable q b) : Quotable q (a ++ b) := by
  induction ha with
  | nil => exact hb
  | plain hq hc _ ih => exact .plain hq hc ih
  | escaped _ ih => exact .escaped ih

theorem quotable_of_forall {cs : List Char} (h : ∀ c ∈ cs, c ≠ q ∧ c ≠ '\\') : Quotable q cs := by
  induction cs with
  | nil => exact .nil
  | cons c cs ih =>
    obtain ⟨⟨hq, hc⟩, hcs⟩ := List.forall_mem_cons.1 h
    exact .plain hq hc (ih hcs)

theorem quotable_hex (hq : IsQuote q) (width n : Nat) : Quotable q (hex width n) := by
  refine quotable_of_forall fun c hc => ?_
  obtain ⟨k, hk, rfl⟩ := mem_hex hc
  have hdigit : ∀ k < 16, Nat.digitChar k ≠ singleQuote ∧ Nat.digitChar k ≠ doubleQuote ∧
      Nat.digitChar k ≠ '\\' := by decide
  obtain ⟨hsingle, hdouble, hslash⟩ := hdigit k hk
  rcases hq with rfl | rfl
  · exact ⟨hsingle, hslash⟩
  · exact ⟨hdouble, hslash⟩

theorem quotable_escape (hq : IsQuote q) (c : Char) : Quotable q (escape q c) := by
  unfold escape
  split_ifs with hself
  · exact .escaped .nil
  · exact .escaped .nil
  · exact .escaped .nil
  · exact .escaped .nil
  · exact .plain (fun h => hself (.inl h)) (fun h => hself (.inr h)) .nil
  · exact .escaped (quotable_hex hq _ _)
  · exact .escaped (quotable_hex hq _ _)
  · exact .escaped (quotable_hex hq _ _)

theorem quotable_flatMap (hq : IsQuote q) (cs : List Char) :
    Quotable q (cs.flatMap (escape q)) := by
  induction cs with
  | nil => exact .nil
  | cons c cs ih => exact (quotable_escape hq c).append ih

end Lox.Text
