import Lox.Decimal.Nearest
import Lox.Decimal.Shortest
import Lox.Proofs.Decimal.Double
import Mathlib.Data.List.DropRight

namespace Lox.Decimal
set_option autoImplicit true

theorem zpow_mul_pow {b : ℚ} (hb : b ≠ 0) (p : Int) : b ^ p * b ^ (-p).toNat = b ^ p.toNat := by
  rw [← zpow_natCast, ← zpow_natCast, ← zpow_add₀ hb]
  congr 1
  omega

section
variable (a b : Nat) (p q : Int)

/-- Both sides of a comparison, as whole numbers, are those of the scaled numbers times a common
factor. -/
theorem compareScaled_eq :
    compareScaled a p b q = compare ((a : ℚ) * 10 ^ p) ((b : ℚ) * 2 ^ q) := by
  have hfactor : (0 : ℚ) < 10 ^ (-p).toNat * 2 ^ (-q).toNat := by positivity
  have hten : (10 : ℚ) ^ p * 10 ^ (-p).toNat = 10 ^ p.toNat := zpow_mul_pow (by norm_num) p
  have htwo : (2 : ℚ) ^ q * 2 ^ (-q).toNat = 2 ^ q.toNat := zpow_mul_pow (by norm_num) q
  have hleft : ((a * 10 ^ p.toNat * 2 ^ (-q).toNat : Nat) : ℚ) =
      a * 10 ^ p * (10 ^ (-p).toNat * 2 ^ (-q).toNat) := by
    push_cast
    rw [← hten]
    ring
  have hright : ((b * 2 ^ q.toNat * 10 ^ (-p).toNat : Nat) : ℚ) =
      b * 2 ^ q * (10 ^ (-p).toNat * 2 ^ (-q).toNat) := by
    push_cast
    rw [← htwo]
    ring
  rw [compareScaled]
  simp only [Nat.pow_eq]
  rcases lt_trichotomy ((a : ℚ) * 10 ^ p) ((b : ℚ) * 2 ^ q) with h | h | h
  · rw [compare_lt_iff_lt.2 h, compare_lt_iff_lt, ← Nat.cast_lt (α := ℚ), hleft, hright]
    exact mul_lt_mul_of_pos_right h hfactor
  · rw [compare_eq_iff_eq.2 h, compare_eq_iff_eq, ← Nat.cast_inj (R := ℚ), hleft, hright, h]
  · rw [compare_gt_iff_gt.2 h, compare_gt_iff_gt, ← Nat.cast_lt (α := ℚ), hleft, hright]
    exact mul_lt_mul_of_pos_right h hfactor

end

/-- A number lies in an interval. -/
structure Interval.Has (i : Interval) (x : ℚ) : Prop where
  low_le : (i.low : ℚ) * 2 ^ i.unit ≤ x
  le_high : x ≤ (i.high : ℚ) * 2 ^ i.unit
  low_lt : i.closed = false → (i.low : ℚ) * 2 ^ i.unit < x
  lt_high : i.closed = false → x < (i.high : ℚ) * 2 ^ i.unit

theorem Interval.has_of_contains {i : Interval} (h : i.contains c p = true) :
    i.Has ((c : ℚ) * 10 ^ p) := by
  rw [Interval.contains, Bool.and_eq_true, compareScaled_eq, compareScaled_eq] at h
  obtain ⟨hlow, hhigh⟩ := h
  have hlow' : (i.low : ℚ) * 2 ^ i.unit < c * 10 ^ p ∨
      (i.low : ℚ) * 2 ^ i.unit = c * 10 ^ p ∧ i.closed = true := by
    split at hlow
    · cases hlow
    · next h => exact .inr ⟨(compare_eq_iff_eq.1 h).symm, hlow⟩
    · next h => exact .inl (compare_gt_iff_gt.1 h)
  have hhigh' : (c : ℚ) * 10 ^ p < i.high * 2 ^ i.unit ∨
      (c : ℚ) * 10 ^ p = i.high * 2 ^ i.unit ∧ i.closed = true := by
    split at hhigh
    · next h => exact .inl (compare_lt_iff_lt.1 h)
    · next h => exact .inr ⟨compare_eq_iff_eq.1 h, hhigh⟩
    · cases hhigh
  refine ⟨?_, ?_, fun hopen => ?_, fun hopen => ?_⟩
  · exact hlow'.elim le_of_lt fun h => le_of_eq h.1
  · exact hhigh'.elim le_of_lt fun h => le_of_eq h.1
  · refine hlow'.resolve_right fun h => ?_
    rw [hopen] at h
    exact absurd h.2 (by decide)
  · refine hhigh'.resolve_right fun h => ?_
    rw [hopen] at h
    exact absurd h.2 (by decide)

theorem low_around (h : Legal m q narrow) :
    ((Interval.around m q narrow).low = 4 * m - 2 ∧ (m = 2 ^ 52 → q = -1074)) ∨
      (Interval.around m q narrow).low = 4 * m - 1 ∧ m = 2 ^ 52 ∧ -1074 < q := by
  have hleast := h.least
  have hiff := h.narrow_iff
  cases narrow with
  | false =>
    refine .inl ⟨rfl, fun hm => ?_⟩
    by_contra hq
    exact absurd (hiff.2 ⟨hm, by omega⟩) (by decide)
  | true => exact .inr ⟨rfl, hiff.1 rfl⟩

theorem even_of_closed (h : (Interval.around m q narrow).closed = true) : m % 2 = 0 :=
  of_decide_eq_true h

theorem apart_same (h' : Legal m' q narrow') (hm : m < m')
    (hx : (Interval.around m q narrow).Has x) (hx' : (Interval.around m' q narrow').Has x) :
    False := by
  have hunit : (0 : ℚ) < 2 ^ (q - 2) := by positivity
  have hlow : 4 * m + 2 ≤ (Interval.around m' q narrow').low := by
    rcases low_around h' with ⟨heq, -⟩ | ⟨heq, -⟩ <;> omega
  -- the ends are the same point, which only even significands own
  have hends : ((4 * m + 2 : Nat) : ℚ) * 2 ^ (q - 2) ≤
      ((Interval.around m' q narrow').low : ℚ) * 2 ^ (q - 2) :=
    mul_le_mul_of_nonneg_right (Nat.cast_le.2 hlow) hunit.le
  have hclosed : (Interval.around m q narrow).closed = true := by
    by_contra hopen
    have hlt := hx.lt_high (Bool.eq_false_of_not_eq_true hopen)
    exact absurd (hlt.trans_le (hends.trans hx'.low_le)) (lt_irrefl _)
  have hclosed' : (Interval.around m' q narrow').closed = true := by
    by_contra hopen
    have hlt := hx'.low_lt (Bool.eq_false_of_not_eq_true hopen)
    exact absurd (hlt.trans_le (hx.le_high.trans hends)) (lt_irrefl _)
  have hmeet : (Interval.around m' q narrow').low ≤ 4 * m + 2 := by
    have hle := hx'.low_le.trans hx.le_high
    exact Nat.cast_le.1 (le_of_mul_le_mul_right hle hunit)
  have heven := even_of_closed hclosed
  have heven' := even_of_closed hclosed'
  rcases low_around h' with ⟨heq, -⟩ | ⟨heq, -⟩ <;> omega

theorem apart_smaller (h : Legal m q narrow) (h' : Legal m' q' narrow') (hq : q < q')
    (hx : (Interval.around m q narrow).Has x) (hx' : (Interval.around m' q' narrow').Has x) :
    False := by
  have hleast := h.least
  have hunit : (0 : ℚ) < 2 ^ (q - 2) := by positivity
  have hfull := h'.full (by omega)
  have hlow : 2 ^ 54 - 1 ≤ (Interval.around m' q' narrow').low := by
    rcases low_around h' with ⟨heq, hm⟩ | ⟨heq, hm, -⟩
    · have hne : m' ≠ 2 ^ 52 := fun hm' => by have := hm hm'; omega
      omega
    · omega
  have hstep : (2 : ℚ) * 2 ^ (q - 2) ≤ 2 ^ (q' - 2) := by
    rw [← zpow_one_add₀ (by norm_num)]
    exact zpow_le_zpow_right₀ (by norm_num) (by omega)
  have hends : ((2 ^ 55 - 2 : Nat) : ℚ) * 2 ^ (q - 2) ≤ x := by
    calc ((2 ^ 55 - 2 : Nat) : ℚ) * 2 ^ (q - 2)
        = ((2 ^ 54 - 1 : Nat) : ℚ) * (2 * 2 ^ (q - 2)) := by
          push_cast
          ring
      _ ≤ ((Interval.around m' q' narrow').low : ℚ) * 2 ^ (q' - 2) :=
          mul_le_mul (Nat.cast_le.2 hlow) hstep (by positivity) (Nat.cast_nonneg _)
      _ ≤ x := hx'.low_le
  have hfits := h.fits
  -- `m` is the greatest significand, which is odd
  have hgreatest : 2 ^ 55 - 2 ≤ 4 * m + 2 :=
    Nat.cast_le.1 (le_of_mul_le_mul_right (hends.trans hx.le_high) hunit)
  have hopen : (Interval.around m q narrow).closed = false := by
    refine Bool.eq_false_of_not_eq_true fun hclosed => ?_
    have heven := even_of_closed hclosed
    omega
  have hlt := hends.trans_lt (hx.lt_high hopen)
  have hbound : ((4 * m + 2 : Nat) : ℚ) * 2 ^ (q - 2) ≤ ((2 ^ 55 - 2 : Nat) : ℚ) * 2 ^ (q - 2) :=
    mul_le_mul_of_nonneg_right (Nat.cast_le.2 (by omega)) hunit.le
  exact absurd (hlt.trans_le hbound) (lt_irrefl _)

/-- A number lies in the interval of one double only. -/
theorem legal_unique (h : Legal m q narrow) (h' : Legal m' q' narrow')
    (hx : (Interval.around m q narrow).Has x) (hx' : (Interval.around m' q' narrow').Has x) :
    m = m' ∧ q = q' ∧ narrow = narrow' := by
  obtain hq | rfl | hq := lt_trichotomy q q'
  · exact (apart_smaller h h' hq hx hx').elim
  · obtain hm | rfl | hm := lt_trichotomy m m'
    · exact (apart_same h' hm hx hx').elim
    · exact ⟨rfl, rfl, Bool.eq_iff_iff.2 (h.narrow_iff.trans h'.narrow_iff.symm)⟩
    · exact (apart_same h hm hx' hx).elim
  · exact (apart_smaller h' h hq hx' hx).elim

def Digits.value (d : Digits) : ℚ :=
  digitsValue d.digits * 10 ^ (d.exponent - d.digits.length + 1)

theorem digitsValue_toDigits (n : Nat) : digitsValue (Nat.toDigits 10 n) = n :=
  Nat.ofDigitChars_toDigits (by decide) (by decide)

theorem digitsValue_append (cs ds : List Char) :
    digitsValue (cs ++ ds) = digitsValue cs * 10 ^ ds.length + digitsValue ds := by
  have hfold : ∀ (ds : List Char) (n : Nat),
      ds.foldl (fun n c => 10 * n + (c.toNat - '0'.toNat)) n = n * 10 ^ ds.length + digitsValue ds := by
    intro ds
    induction ds with
    | nil => simp [digitsValue]
    | cons c ds ih =>
      intro n
      rw [digitsValue, List.foldl_cons, List.foldl_cons, ih, ih, List.length_cons, pow_succ]
      ring
  rw [digitsValue, List.foldl_append, hfold]
  rfl

theorem digitsValue_zeros (k : Nat) : digitsValue (List.replicate k '0') = 0 := by
  induction k with
  | zero => rfl
  | succ k ih => exact ih

theorem eq_append_zeros (cs : List Char) :
    ∃ k, cs = (cs.reverse.dropWhile (· = '0')).reverse ++ List.replicate k '0' := by
  have hzeros : cs.rtakeWhile (· = '0') = List.replicate (cs.rtakeWhile (· = '0')).length '0' :=
    List.eq_replicate_of_mem fun c hc => by simpa using List.mem_rtakeWhile_imp hc
  refine ⟨(cs.rtakeWhile (· = '0')).length, ?_⟩
  rw [← hzeros]
  exact (List.rdropWhile_append_rtakeWhile (p := (· = '0'))).symm

theorem value_ofScaled (c : Nat) (p : Int) : (Digits.ofScaled c p).value = c * 10 ^ p := by
  obtain ⟨k, hk⟩ := eq_append_zeros (Nat.toDigits 10 c)
  have hvalue := digitsValue_toDigits c
  have hlength := congrArg List.length hk
  rw [List.length_append, List.length_replicate] at hlength
  rw [hk, digitsValue_append, digitsValue_zeros, List.length_replicate, add_zero] at hvalue
  rw [Digits.value]
  simp only [Digits.ofScaled]
  rw [hlength]
  have hexponent : ((Nat.toDigits 10 c).reverse.dropWhile (· = '0')).reverse.length +
      (k : Int) - 1 + p - ((Nat.toDigits 10 c).reverse.dropWhile (· = '0')).reverse.length + 1 =
      k + p := by ring
  push_cast
  rw [hexponent, zpow_add₀ (by norm_num), zpow_natCast, ← mul_assoc]
  congr 1
  exact_mod_cast hvalue

theorem lt_pow_digitCount (n : Nat) : n < 10 ^ digitCount n := by
  unfold digitCount
  split
  · next h => rw [h]; decide
  · exact (Nat.length_toDigits_le_iff (by decide) Nat.length_toDigits_pos).1 le_rfl

theorem pow_digitCount_le (h : 0 < n) : 10 ^ (digitCount n - 1) ≤ n := by
  rw [digitCount, if_neg h.ne']
  by_contra hlt
  rcases Nat.eq_zero_or_pos ((Nat.toDigits 10 n).length - 1) with hzero | hpos
  · rw [hzero] at hlt
    omega
  · have hle := (Nat.length_toDigits_le_iff (by decide : 1 < 10) hpos).2 (Nat.lt_of_not_le hlt)
    have := Nat.length_toDigits_pos (b := 10) (n := n)
    omega

theorem pow_leadingExponent_le (hnum : 0 < num) (hden : 0 < den) :
    (10 : ℚ) ^ leadingExponent num den ≤ num / den := by
  unfold leadingExponent
  split_ifs with h
  · have hquotient : 0 < num / den := Nat.div_pos h hden
    have hcount : 0 < digitCount (num / den) := by
      rw [digitCount, if_neg hquotient.ne']
      exact Nat.length_toDigits_pos
    have hexponent : (digitCount (num / den) : Int) - 1 = (digitCount (num / den) - 1 : Nat) := by omega
    rw [hexponent, zpow_natCast]
    calc (10 : ℚ) ^ (digitCount (num / den) - 1) ≤ (num / den : Nat) := by
          exact_mod_cast pow_digitCount_le hquotient
      _ ≤ num / den := Nat.cast_div_le
  · generalize hj : digitCount ((den + num - 1) / num - 1) = j
    have hlt := lt_pow_digitCount ((den + num - 1) / num - 1)
    rw [hj] at hlt
    have hceil : (den + num - 1) / num < 10 ^ j + 1 := by omega
    have hden' : den ≤ num * 10 ^ j := by
      have hmul := (Nat.div_lt_iff_lt_mul hnum).1 hceil
      have hsucc : (10 ^ j + 1) * num = num * 10 ^ j + num := by ring
      omega
    rw [zpow_neg, zpow_natCast, le_div_iff₀ (by exact_mod_cast hden),
      inv_mul_le_iff₀ (by positivity), mul_comm]
    exact_mod_cast hden'

/-- A quotient lies between two neighbouring multiples of a power of ten. -/
theorem floor_scaled (num : Nat) (hden : 0 < den) (p : Int) :
    ((num * 10 ^ (-p).toNat / (den * 10 ^ p.toNat) : Nat) : ℚ) * 10 ^ p ≤ num / den ∧
      (num : ℚ) / den < ((num * 10 ^ (-p).toNat / (den * 10 ^ p.toNat) : Nat) + 1) * 10 ^ p := by
  have hpower : (0 : ℚ) < 10 ^ p := by positivity
  have hscaled : (0 : ℚ) < (den * 10 ^ p.toNat : Nat) := by
    have : 0 < den * 10 ^ p.toNat := by positivity
    exact_mod_cast this
  have hquotient : (num : ℚ) / den =
      (num * 10 ^ (-p).toNat : Nat) / (den * 10 ^ p.toNat : Nat) * 10 ^ p := by
    have hten : (10 : ℚ) ^ p * 10 ^ (-p).toNat = 10 ^ p.toNat := zpow_mul_pow (by norm_num) p
    have hne : (den : ℚ) ≠ 0 := by exact_mod_cast hden.ne'
    push_cast
    rw [← hten]
    field_simp
  rw [hquotient]
  constructor
  · exact mul_le_mul_of_nonneg_right Nat.cast_div_le hpower.le
  · refine mul_lt_mul_of_pos_right ?_ hpower
    rw [div_lt_iff₀ hscaled]
    exact_mod_cast Nat.lt_mul_of_div_lt (Nat.lt_succ_self _) (by exact_mod_cast hscaled)

theorem contains_of_candidate? (h : candidate? i num den p = some c) : i.contains c p = true := by
  unfold candidate? at h
  dsimp only at h
  split at h
  · next hc _ => exact Option.some.inj h ▸ hc
  · next _ hc => exact Option.some.inj h ▸ hc
  · next hc hc' =>
    obtain rfl := Option.some.inj h
    split
    · exact hc
    · exact hc'
  · cases h

section
variable {num den : Nat} {lead : Int}

/-- Eighteen digits are always enough. -/
theorem has_floor (h : Legal m q narrow) (hpos : 0 < m)
    (hvalue : (num : ℚ) / den = m * 2 ^ q) (hden : 0 < den)
    (hlead : (10 : ℚ) ^ lead ≤ m * 2 ^ q) (hp : p + 17 ≤ lead) :
    (Interval.around m q narrow).Has
      ((num * 10 ^ (-p).toNat / (den * 10 ^ p.toNat) : Nat) * 10 ^ p) := by
  obtain ⟨hle, hlt⟩ := floor_scaled num hden p
  rw [hvalue] at hle hlt
  generalize ((num * 10 ^ (-p).toNat / (den * 10 ^ p.toNat) : Nat) : ℚ) = c at hle hlt ⊢
  have hunit : (0 : ℚ) < 2 ^ (q - 2) := by positivity
  have hq : (m : ℚ) * 2 ^ q = 4 * m * 2 ^ (q - 2) := by
    rw [zpow_sub₀ (by norm_num)]
    ring
  have hm : (m : ℚ) < 2 ^ 53 := by exact_mod_cast h.fits
  -- one step of this grid is less than a quarter of a step between doubles
  have hstep : (10 : ℚ) ^ p < 2 ^ (q - 2) := by
    have hpower : (10 : ℚ) ^ p * 10 ^ 17 ≤ m * 2 ^ q := by
      refine le_trans ?_ hlead
      rw [← zpow_natCast, ← zpow_add₀ (by norm_num)]
      exact zpow_le_zpow_right₀ (by norm_num) hp
    rw [hq] at hpower
    have hbound := mul_lt_mul_of_pos_right hm hunit
    nlinarith
  have hlow : ((Interval.around m q narrow).low : ℚ) * 2 ^ (q - 2) ≤ (4 * m - 1) * 2 ^ (q - 2) := by
    refine mul_le_mul_of_nonneg_right ?_ hunit.le
    have hnat : (Interval.around m q narrow).low + 1 ≤ 4 * m := by
      rcases low_around h with ⟨heq, -⟩ | ⟨heq, -⟩ <;> omega
    have hcast : ((Interval.around m q narrow).low : ℚ) + 1 ≤ 4 * m := by exact_mod_cast hnat
    linarith
  have hlow_lt : ((Interval.around m q narrow).low : ℚ) * 2 ^ (q - 2) < c * 10 ^ p := by
    linarith
  have hhigh_lt : c * 10 ^ p < ((Interval.around m q narrow).high : ℚ) * 2 ^ (q - 2) := by
    have hhigh : ((Interval.around m q narrow).high : ℚ) = 4 * m + 2 := by
      simp [Interval.around]
    rw [hhigh]
    linarith
  exact ⟨hlow_lt.le, hhigh_lt.le, fun _ => hlow_lt, fun _ => hhigh_lt⟩

theorem has_shortestFrom (h : Legal m q narrow) (hpos : 0 < m)
    (hvalue : (num : ℚ) / den = m * 2 ^ q) (hden : 0 < den) (hlead : (10 : ℚ) ^ lead ≤ m * 2 ^ q)
    (hlength : 18 ≤ length + more) :
    (Interval.around m q narrow).Has
      (shortestFrom (.around m q narrow) num den lead length more).value := by
  induction more generalizing length with
  | zero =>
    rw [shortestFrom, value_ofScaled]
    exact has_floor h hpos hvalue hden hlead (by omega)
  | succ more ih =>
    rw [shortestFrom]
    split
    · next c hc =>
      rw [value_ofScaled]
      exact Interval.has_of_contains (contains_of_candidate? hc)
    · exact ih (by omega)

end

/-- The shortest decimal of a double reads back as the double. -/
theorem has_shortest (h : Legal m q narrow) (hm : 0 < m) :
    (Interval.around m q narrow).Has (shortest m q narrow).value := by
  have hvalue : ((m * 2 ^ q.toNat : Nat) : ℚ) / (2 ^ (-q).toNat : Nat) = m * 2 ^ q := by
    have htwo : (2 : ℚ) ^ q * 2 ^ (-q).toNat = 2 ^ q.toNat := zpow_mul_pow (by norm_num) q
    push_cast
    rw [← htwo]
    field_simp
  have hnum : 0 < m * 2 ^ q.toNat := by positivity
  have hden : 0 < 2 ^ (-q).toNat := by positivity
  refine has_shortestFrom h hm hvalue hden ?_ (by decide)
  rw [← hvalue]
  exact pow_leadingExponent_le hnum hden

end Lox.Decimal
