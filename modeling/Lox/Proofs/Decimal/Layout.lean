import Lox.Decimal.Layout
import Lox.Proofs.Decimal.Shortest
import Mathlib.Data.List.TakeWhile

namespace Lox.Decimal
set_option autoImplicit true

/-- Digits, the marks of a point, an exponent and a sign, and the letters of what is not finite. -/
def isNumberChar (c : Char) : Bool :=
  c.isDigit || ['.', 'e', '+', '-', 'i', 'n', 'f', 'a'].contains c

theorem isNumberChar_of_isDigit (h : c.isDigit = true) : isNumberChar c = true :=
  Bool.or_eq_true_iff.2 (.inl h)

/-- All digits are decimal digits. -/
def Digits.Proper (d : Digits) : Prop := ∀ c ∈ d.digits, c.isDigit = true

theorem proper_ofScaled (c : Nat) (p : Int) : (Digits.ofScaled c p).Proper := by
  intro d hd
  have hmem := (List.dropWhile_sublist _).subset (List.mem_reverse.1 hd)
  exact Nat.isDigit_of_mem_toDigits (by decide) (by decide) (List.mem_reverse.1 hmem)

theorem proper_shortestFrom (i : Interval) (num den : Nat) (lead : Int) (length more : Nat) :
    (shortestFrom i num den lead length more).Proper := by
  induction more generalizing length with
  | zero => exact proper_ofScaled _ _
  | succ more ih =>
    rw [shortestFrom]
    split
    · exact proper_ofScaled _ _
    · exact ih (length + 1)

theorem proper_shortest (m : Nat) (q : Int) (narrow : Bool) : (shortest m q narrow).Proper :=
  proper_shortestFrom _ _ _ _ _ _

section
variable {d : Digits} (h : d.Proper)
include h

theorem Digits.Proper.positional (hc : c ∈ d.positional) : isNumberChar c = true := by
  unfold Digits.positional at hc
  split at hc
  · simp only [List.mem_cons, List.mem_append, List.mem_replicate] at hc
    rcases hc with rfl | rfl | ⟨-, rfl⟩ | hc
    · rfl
    · rfl
    · rfl
    · exact isNumberChar_of_isDigit (h c hc)
  · dsimp only at hc
    rcases List.mem_append.1 hc with hc | hc
    · rcases List.mem_append.1 hc with hc | hc
      · exact isNumberChar_of_isDigit (h c (List.mem_of_mem_take hc))
      · exact List.eq_of_mem_replicate hc ▸ rfl
    · rcases List.mem_cons.1 hc with rfl | hc
      · rfl
      · split at hc
        · exact List.mem_singleton.1 hc ▸ rfl
        · exact isNumberChar_of_isDigit (h c (List.mem_of_mem_drop hc))

theorem Digits.Proper.scientific (hc : c ∈ d.scientific width) : isNumberChar c = true := by
  unfold Digits.scientific at hc
  dsimp only at hc
  rcases List.mem_append.1 hc with hc | hc
  · rcases List.mem_append.1 hc with hc | hc
    · exact isNumberChar_of_isDigit (h c (List.mem_of_mem_take hc))
    · split at hc
      · cases hc
      · rcases List.mem_cons.1 hc with rfl | hc
        · rfl
        · exact isNumberChar_of_isDigit (h c (List.mem_of_mem_drop hc))
  · rcases List.mem_cons.1 hc with rfl | hc
    · rfl
    · rcases List.mem_cons.1 hc with rfl | hc
      · split
        · rfl
        · rfl
      · rcases List.mem_append.1 hc with hc | hc
        · exact List.eq_of_mem_replicate hc ▸ rfl
        · exact isNumberChar_of_isDigit (Nat.isDigit_of_mem_toDigits (by decide) (by decide) hc)

theorem Digits.Proper.write (l : Layout) (hc : c ∈ l.write d) : isNumberChar c = true := by
  unfold Layout.write at hc
  split at hc
  · exact h.positional hc
  · exact h.scientific hc

end

theorem mem_signed {text : List Char} (htext : ∀ c ∈ text, isNumberChar c = true)
    (hc : c ∈ (signed negative text).toList) : isNumberChar c = true := by
  rw [signed, String.toList_ofList] at hc
  split at hc
  · rcases List.mem_cons.1 hc with rfl | hc
    · rfl
    · exact htext c hc
  · exact htext c hc

theorem numberChar_text (x : Float) : ∀ c ∈ (text x).toList, isNumberChar c = true := by
  intro c hc
  unfold text at hc
  split at hc
  · exact List.all_eq_true.1 (by decide : "nan".toList.all isNumberChar = true) c hc
  · exact mem_signed (List.all_eq_true.1 (by decide)) hc
  · exact mem_signed (List.all_eq_true.1 (by decide)) hc
  · exact mem_signed (fun c hc => (proper_shortest _ _ _).write _ hc) hc

theorem write_ne_nil (l : Layout) (d : Digits) : l.write d ≠ [] := by
  unfold Layout.write Digits.positional Digits.scientific
  split_ifs <;> simp

theorem text_ne_nil (x : Float) : (text x).toList ≠ [] := by
  have hsigned : ∀ {negative cs}, cs ≠ [] → (signed negative cs).toList ≠ [] := by
    intro negative cs hcs
    rw [signed, String.toList_ofList]
    split
    · exact List.cons_ne_nil _ _
    · exact hcs
  unfold text
  split
  · decide
  · exact hsigned (by decide)
  · exact hsigned (by decide)
  · exact hsigned (write_ne_nil _ _)

/-- The number behind the mark of an exponent, zero if there is none. -/
def powerReading : List Char → Int
  | '-' :: digits => -digitsValue digits
  | '+' :: digits => digitsValue digits
  | _ => 0

/-- Digits with a point among them. -/
def pointReading (text : List Char) : ℚ :=
  let whole := text.takeWhile (· ≠ '.')
  let fraction := (text.dropWhile (· ≠ '.')).drop 1
  digitsValue (whole ++ fraction) * 10 ^ (-fraction.length : Int)

def reading (text : List Char) : ℚ :=
  pointReading (text.takeWhile (· ≠ 'e')) *
    10 ^ powerReading ((text.dropWhile (· ≠ 'e')).drop 1)

theorem cut_at {cs : List Char} (h : x ∉ cs) (rest : List Char) :
    (cs ++ x :: rest).takeWhile (· ≠ x) = cs ∧ (cs ++ x :: rest).dropWhile (· ≠ x) = x :: rest := by
  have hne : ∀ c ∈ cs, (fun c => decide (c ≠ x)) c = true :=
    fun c hc => decide_eq_true fun heq => h (heq ▸ hc)
  constructor
  · rw [List.takeWhile_append_of_pos hne]
    simp
  · rw [List.dropWhile_append_of_pos hne]
    simp

theorem no_cut {cs : List Char} (h : x ∉ cs) :
    cs.takeWhile (· ≠ x) = cs ∧ cs.dropWhile (· ≠ x) = [] := by
  have hne : ∀ c ∈ cs, (fun c => decide (c ≠ x)) c = true :=
    fun c hc => decide_eq_true fun heq => h (heq ▸ hc)
  exact ⟨List.takeWhile_eq_self_iff.2 hne, List.dropWhile_eq_nil_iff.2 hne⟩

theorem pointReading_point (h : '.' ∉ whole) (fraction : List Char) :
    pointReading (whole ++ '.' :: fraction) =
      digitsValue (whole ++ fraction) * 10 ^ (-fraction.length : Int) := by
  obtain ⟨htake, hdrop⟩ := cut_at h fraction
  simp only [pointReading, htake, hdrop, List.drop_one, List.tail_cons]

theorem pointReading_whole (h : '.' ∉ whole) : pointReading whole = digitsValue whole := by
  obtain ⟨htake, hdrop⟩ := no_cut h
  simp only [pointReading, htake, hdrop]
  simp

theorem reading_power (h : 'e' ∉ mantissa) (power : List Char) :
    reading (mantissa ++ 'e' :: power) = pointReading mantissa * 10 ^ powerReading power := by
  obtain ⟨htake, hdrop⟩ := cut_at h power
  simp only [reading, htake, hdrop, List.drop_one, List.tail_cons]

theorem reading_plain (h : 'e' ∉ mantissa) : reading mantissa = pointReading mantissa := by
  obtain ⟨htake, hdrop⟩ := no_cut h
  simp only [reading, htake, hdrop]
  simp [powerReading]

theorem Digits.Proper.not_mem {d : Digits} (h : d.Proper) (hx : x.isDigit = false) : x ∉ d.digits := by
  intro hmem
  rw [h x hmem] at hx
  cases hx

theorem digitsValue_leading (k : Nat) (digits : List Char) :
    digitsValue (List.replicate k '0' ++ digits) = digitsValue digits := by
  rw [digitsValue_append, digitsValue_zeros, Nat.zero_mul, Nat.zero_add]

theorem digitsValue_trailing (digits : List Char) (k : Nat) :
    digitsValue (digits ++ List.replicate k '0') = digitsValue digits * 10 ^ k := by
  rw [digitsValue_append, digitsValue_zeros, List.length_replicate, Nat.add_zero]

section
variable {d : Digits} (h : d.Proper)
include h

theorem reading_small (hneg : d.exponent < 0) : reading d.positional = d.value := by
  have he : 'e' ∉ d.digits := h.not_mem (by decide)
  rw [Digits.positional, if_pos hneg]
  generalize hk : (-d.exponent - 1).toNat = k
  have hmantissa : 'e' ∉ '0' :: '.' :: (List.replicate k '0' ++ d.digits) := by
    simp [he]
  have hexponent : -((List.replicate k '0' ++ d.digits).length : Int) =
      d.exponent - d.digits.length + 1 := by
    rw [List.length_append, List.length_replicate]
    omega
  calc reading ('0' :: '.' :: (List.replicate k '0' ++ d.digits))
      = pointReading (['0'] ++ '.' :: (List.replicate k '0' ++ d.digits)) := reading_plain hmantissa
    _ = digitsValue (List.replicate (k + 1) '0' ++ d.digits) *
          10 ^ (-((List.replicate k '0' ++ d.digits).length : Int)) :=
        pointReading_point (by decide) _
    _ = d.value := by rw [digitsValue_leading, hexponent, Digits.value]

theorem reading_whole (hpos : 0 ≤ d.exponent) (hlength : d.digits.length ≤ d.exponent.toNat + 1) :
    reading d.positional = d.value := by
  have he : 'e' ∉ d.digits := h.not_mem (by decide)
  have hpoint : '.' ∉ d.digits := h.not_mem (by decide)
  rw [Digits.positional, if_neg (by omega)]
  simp only [List.take_of_length_le hlength, List.drop_of_length_le hlength, List.isEmpty_nil, if_true]
  generalize hk : d.exponent.toNat + 1 - d.digits.length = k
  have hmantissa : 'e' ∉ d.digits ++ List.replicate k '0' ++ ['.', '0'] := by
    simp [he]
  have hwhole : '.' ∉ d.digits ++ List.replicate k '0' := by
    simp [hpoint]
  have hexponent : d.exponent - d.digits.length + 1 = k := by omega
  calc reading (d.digits ++ List.replicate k '0' ++ ['.', '0'])
      = pointReading (d.digits ++ List.replicate k '0' ++ '.' :: ['0']) := reading_plain hmantissa
    _ = digitsValue (d.digits ++ List.replicate k '0' ++ ['0']) * 10 ^ (-1 : Int) :=
        pointReading_point hwhole _
    _ = digitsValue (d.digits ++ List.replicate (k + 1) '0') * 10 ^ (-1 : Int) := by
        rw [List.append_assoc, ← List.replicate_succ']
    _ = d.value := by
        rw [digitsValue_trailing, Digits.value, hexponent, zpow_natCast, pow_succ]
        push_cast
        field_simp

theorem reading_mixed (hpos : 0 ≤ d.exponent) (hlength : d.exponent.toNat + 1 < d.digits.length) :
    reading d.positional = d.value := by
  have he : 'e' ∉ d.digits := h.not_mem (by decide)
  have hpoint : '.' ∉ d.digits := h.not_mem (by decide)
  rw [Digits.positional, if_neg (by omega)]
  have hpadding : d.exponent.toNat + 1 - d.digits.length = 0 := by omega
  have hfraction : (d.digits.drop (d.exponent.toNat + 1)).isEmpty = false := by
    simpa [List.isEmpty_iff] using hlength
  simp only [hpadding, hfraction, List.replicate_zero, List.append_nil]
  have hmantissa : 'e' ∉ d.digits.take (d.exponent.toNat + 1) ++
      '.' :: d.digits.drop (d.exponent.toNat + 1) := by
    intro hmem
    rcases List.mem_append.1 hmem with hmem | hmem
    · exact he (List.mem_of_mem_take hmem)
    · rcases List.mem_cons.1 hmem with hmem | hmem
      · exact absurd hmem (by decide)
      · exact he (List.mem_of_mem_drop hmem)
  have hexponent : -((d.digits.drop (d.exponent.toNat + 1)).length : Int) =
      d.exponent - d.digits.length + 1 := by
    rw [List.length_drop]
    omega
  rw [if_neg (by decide), reading_plain hmantissa,
    pointReading_point fun hmem => hpoint (List.mem_of_mem_take hmem), List.take_append_drop, hexponent,
    Digits.value]

theorem reading_positional : reading d.positional = d.value := by
  rcases lt_or_ge d.exponent 0 with hneg | hpos
  · exact reading_small h hneg
  · rcases le_or_gt d.digits.length (d.exponent.toNat + 1) with hle | hlt
    · exact reading_whole h hpos hle
    · exact reading_mixed h hpos hlt

theorem reading_scientific (hne : d.digits ≠ []) (width : Nat) :
    reading (d.scientific width) = d.value := by
  have he : 'e' ∉ d.digits := h.not_mem (by decide)
  have hpoint : '.' ∉ d.digits := h.not_mem (by decide)
  obtain ⟨c, fraction, hdigits⟩ := List.exists_cons_of_ne_nil hne
  rw [hdigits] at he hpoint
  have hmantissa : 'e' ∉ [c] ++ (if fraction.isEmpty then [] else '.' :: fraction) := by
    intro hmem
    rcases List.mem_append.1 hmem with hmem | hmem
    · exact he (List.mem_cons.2 (.inl (List.mem_singleton.1 hmem)))
    · split at hmem
      · cases hmem
      · rcases List.mem_cons.1 hmem with hmem | hmem
        · exact absurd hmem (by decide)
        · exact he (List.mem_cons_of_mem _ hmem)
  have hpower : powerReading ((if d.exponent < 0 then '-' else '+') ::
      (List.replicate (width - (Nat.toDigits 10 d.exponent.natAbs).length) '0' ++
        Nat.toDigits 10 d.exponent.natAbs)) = d.exponent := by
    split
    · rw [powerReading, digitsValue_leading, digitsValue_toDigits]
      omega
    · rw [powerReading, digitsValue_leading, digitsValue_toDigits]
      omega
  have hreading : pointReading ([c] ++ (if fraction.isEmpty then [] else '.' :: fraction)) =
      digitsValue (c :: fraction) * 10 ^ (-(fraction.length : Int)) := by
    have hc : '.' ∉ [c] := fun hmem => hpoint (List.mem_cons.2 (.inl (List.mem_singleton.1 hmem)))
    cases fraction with
    | nil =>
      rw [List.isEmpty_nil, if_pos rfl, List.append_nil, pointReading_whole hc]
      simp
    | cons => exact pointReading_point hc _
  simp only [Digits.scientific, hdigits, List.take_succ_cons, List.take_zero, List.drop_succ_cons,
    List.drop_zero]
  rw [reading_power hmantissa, hpower, hreading, Digits.value, hdigits, List.length_cons, mul_assoc,
    ← zpow_add₀ (by norm_num)]
  congr 2
  push_cast
  ring

theorem reading_write (hne : d.digits ≠ []) (l : Layout) : reading (l.write d) = d.value := by
  unfold Layout.write
  split
  · exact reading_positional h
  · exact reading_scientific h hne _

end

def Double.negative : Double → Bool
  | .notANumber => false
  | .infinite negative => negative
  | .finite negative _ _ _ => negative

/-- The text of a double without its sign. -/
def Double.magnitude : Double → List Char
  | .notANumber => "nan".toList
  | .infinite _ => "inf".toList
  | .finite _ 0 _ _ => "0.0".toList
  | .finite _ m q narrow => numberLayout.write (shortest m q narrow)

theorem text_eq_signed (x : Float) :
    text x = signed (Double.ofFloat x).negative (Double.ofFloat x).magnitude := by
  rw [text]
  cases Double.ofFloat x with
  | notANumber => rfl
  | infinite => rfl
  | finite negative m q narrow => cases m <;> rfl

theorem value_pos (h : Legal m q narrow) (hm : 0 < m) : 0 < (shortest m q narrow).value := by
  have hlow : 0 < (Interval.around m q narrow).low := by
    rcases low_around h with ⟨heq, -⟩ | ⟨heq, -⟩ <;> omega
  have hpos : (0 : ℚ) < (Interval.around m q narrow).low * 2 ^ (Interval.around m q narrow).unit := by
    have : (0 : ℚ) < (Interval.around m q narrow).low := by exact_mod_cast hlow
    positivity
  exact hpos.trans_le (has_shortest h hm).low_le

theorem digits_ne_nil (h : Legal m q narrow) (hm : 0 < m) : (shortest m q narrow).digits ≠ [] := by
  intro hnil
  have hpos := value_pos h hm
  rw [Digits.value, hnil] at hpos
  simp [digitsValue] at hpos

theorem write_head {d : Digits} (h : d.Proper) (hne : d.digits ≠ []) (l : Layout) :
    ∃ c cs, l.write d = c :: cs ∧ c.isDigit = true := by
  obtain ⟨c, rest, hdigits⟩ := List.exists_cons_of_ne_nil hne
  have hc : c.isDigit = true := h c (hdigits ▸ List.mem_cons_self)
  unfold Layout.write
  split
  · unfold Digits.positional
    split
    · exact ⟨_, _, rfl, by decide⟩
    · simp only [hdigits, List.take_succ_cons, List.cons_append]
      exact ⟨_, _, rfl, hc⟩
  · simp only [Digits.scientific, hdigits, List.take_succ_cons, List.cons_append]
    exact ⟨_, _, rfl, hc⟩

/-- The text of a finite double begins with a digit and reads as a number that only this double
has. -/
theorem magnitude_finite (h : Legal m q narrow) (negative : Bool) :
    (∃ c cs, (Double.finite negative m q narrow).magnitude = c :: cs ∧ c.isDigit = true) ∧
      (m = 0 ∧ reading (Double.finite negative m q narrow).magnitude = 0 ∨
        0 < reading (Double.finite negative m q narrow).magnitude ∧
          (Interval.around m q narrow).Has (reading (Double.finite negative m q narrow).magnitude)) := by
  cases m with
  | zero =>
    refine ⟨⟨_, _, rfl, by decide⟩, .inl ⟨rfl, ?_⟩⟩
    have hzero : '.' ∉ ['0'] := by decide
    calc reading ['0', '.', '0'] = pointReading (['0'] ++ '.' :: ['0']) := reading_plain (by decide)
      _ = digitsValue ['0', '0'] * 10 ^ (-1 : Int) := pointReading_point hzero ['0']
      _ = 0 := by simp [digitsValue]
  | succ m =>
    have hne := digits_ne_nil h (Nat.succ_pos m)
    have hproper := proper_shortest (m + 1) q narrow
    have hmagnitude : (Double.finite negative (m + 1) q narrow).magnitude =
        numberLayout.write (shortest (m + 1) q narrow) := rfl
    rw [hmagnitude]
    refine ⟨write_head hproper hne _, .inr ?_⟩
    rw [reading_write hproper hne]
    exact ⟨value_pos h (Nat.succ_pos m), has_shortest h (Nat.succ_pos m)⟩

theorem finite_inj (h : Legal m q narrow) (h' : Legal m' q' narrow')
    (heq : (Double.finite negative m q narrow).magnitude =
      (Double.finite negative' m' q' narrow').magnitude) :
    m = m' ∧ q = q' ∧ narrow = narrow' := by
  have hcases := (magnitude_finite h negative).2
  have hcases' := (magnitude_finite h' negative').2
  rw [heq] at hcases
  rcases hcases with ⟨rfl, hzero⟩ | ⟨hpos, hhas⟩
  · rcases hcases' with ⟨rfl, -⟩ | ⟨hpos', -⟩
    · have hq : ∀ {q narrow}, Legal 0 q narrow → q = -1074 ∧ narrow = false := by
        intro q narrow hlegal
        have hleast := hlegal.least
        have hfull := hlegal.full
        refine ⟨by omega, Bool.eq_false_of_not_eq_true fun hnarrow => ?_⟩
        exact absurd (hlegal.narrow_iff.1 hnarrow).1 (by decide)
      exact ⟨rfl, (hq h).1.trans (hq h').1.symm, (hq h).2.trans (hq h').2.symm⟩
    · exact absurd (hzero ▸ hpos') (lt_irrefl _)
  · rcases hcases' with ⟨-, hzero'⟩ | ⟨-, hhas'⟩
    · exact absurd (hzero' ▸ hpos) (lt_irrefl _)
    · exact legal_unique h h' hhas hhas'

/-- Finite doubles have a legal significand and exponent. -/
def Double.Lawful : Double → Prop
  | .finite _ m q narrow => Legal m q narrow
  | _ => True

theorem lawful_ofFloat (x : Float) : (Double.ofFloat x).Lawful := by
  unfold Double.ofFloat
  cases h : Double.ofBits x.toBits.toNat with
  | finite negative m q narrow => exact legal_ofBits h
  | _ => trivial

theorem magnitude_head {D : Double} (h : D.Lawful) :
    ∃ c cs, D.magnitude = c :: cs ∧ c ≠ '-' := by
  cases D with
  | notANumber => exact ⟨_, _, rfl, by decide⟩
  | infinite => exact ⟨_, _, rfl, by decide⟩
  | finite negative m q narrow =>
    obtain ⟨c, cs, hcs, hc⟩ := (magnitude_finite h negative).1
    refine ⟨c, cs, hcs, ?_⟩
    rintro rfl
    exact absurd hc (by decide)

theorem signed_inj {cs ds : List Char} (hcs : ∃ c rest, cs = c :: rest ∧ c ≠ '-')
    (hds : ∃ d rest, ds = d :: rest ∧ d ≠ '-') (h : signed negative cs = signed negative' ds) :
    negative = negative' ∧ cs = ds := by
  obtain ⟨c, rest, rfl, hc⟩ := hcs
  obtain ⟨d, rest', rfl, hd⟩ := hds
  have hchars := String.ofList_inj.1 h
  cases negative with
  | false =>
    cases negative' with
    | false => exact ⟨rfl, hchars⟩
    | true => exact absurd (List.cons.inj hchars).1 hc
  | true =>
    cases negative' with
    | false => exact absurd (List.cons.inj hchars).1.symm hd
    | true => exact ⟨rfl, (List.cons.inj hchars).2⟩

theorem finite_ne {word : List Char} (h : Legal m q narrow)
    (hword : word.head?.all Char.isDigit = false) :
    (Double.finite negative m q narrow).magnitude ≠ word := by
  rintro rfl
  obtain ⟨c, cs, hcs, hc⟩ := (magnitude_finite h negative).1
  rw [hcs] at hword
  exact absurd (hc.symm.trans hword) (by decide)

theorem double_inj {D E : Double} (hD : D.Lawful) (hE : E.Lawful) (hsign : D.negative = E.negative)
    (h : D.magnitude = E.magnitude) : D = E := by
  cases D with
  | notANumber =>
    cases E with
    | notANumber => rfl
    | infinite => exact absurd (show "nan".toList = "inf".toList from h) (by decide)
    | finite => exact absurd h.symm (finite_ne hE (by decide))
  | infinite negative =>
    cases E with
    | notANumber => exact absurd (show "inf".toList = "nan".toList from h) (by decide)
    | infinite negative' => exact congrArg Double.infinite hsign
    | finite => exact absurd h.symm (finite_ne hE rfl)
  | finite negative m q narrow =>
    cases E with
    | notANumber => exact absurd h (finite_ne hD (by decide))
    | infinite => exact absurd h (finite_ne hD rfl)
    | finite negative' m' q' narrow' =>
      obtain ⟨rfl, rfl, rfl⟩ := finite_inj hD hE h
      obtain rfl : negative = negative' := hsign
      rfl

/-- Different numbers have different texts. -/
theorem text_injective : Function.Injective text := by
  intro x y h
  rw [text_eq_signed, text_eq_signed] at h
  obtain ⟨hsign, hmagnitude⟩ :=
    signed_inj (magnitude_head (lawful_ofFloat x)) (magnitude_head (lawful_ofFloat y)) h
  exact ofFloat_injective (double_inj (lawful_ofFloat x) (lawful_ofFloat y) hsign hmagnitude)

end Lox.Decimal
