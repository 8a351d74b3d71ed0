import Lox.Decimal.Double
import Mathlib.Tactic

namespace Lox.Decimal
set_option autoImplicit true

/-- Significands and exponents of finite doubles. Only at the least exponent may a significand have
fewer than 53 bits. -/
structure Legal (m : Nat) (q : Int) (narrow : Bool) : Prop where
  fits : m < 2 ^ 53
  least : -1074 ≤ q
  full : -1074 < q → 2 ^ 52 ≤ m
  narrow_iff : narrow = true ↔ m = 2 ^ 52 ∧ -1074 < q

theorem legal_ofBits (h : Double.ofBits bits = .finite negative m q narrow) : Legal m q narrow := by
  have hmod : bits % 2 ^ 52 < 2 ^ 52 := Nat.mod_lt _ (by decide)
  simp only [Double.ofBits, Nat.pow_eq] at h
  split_ifs at h with hmax hinf hzero
  · obtain ⟨-, rfl, rfl, rfl⟩ := Double.finite.inj h
    refine ⟨?_, ?_, ?_, ?_⟩
    · omega
    · omega
    · omega
    · simp
  · obtain ⟨-, rfl, rfl, rfl⟩ := Double.finite.inj h
    refine ⟨?_, ?_, ?_, ?_⟩
    · omega
    · omega
    · omega
    · simp only [Bool.and_eq_true, decide_eq_true_eq]
      omega

theorem bits_eq_of_fields {bits bits' : Nat} (hb : bits < 2 ^ 64) (hb' : bits' < 2 ^ 64)
    (hsign : bits / 2 ^ 63 % 2 = bits' / 2 ^ 63 % 2)
    (hbiased : bits / 2 ^ 52 % 2 ^ 11 = bits' / 2 ^ 52 % 2 ^ 11)
    (hfraction : bits % 2 ^ 52 = bits' % 2 ^ 52) : bits = bits' := by
  omega

theorem sign_eq {bits bits' : Nat}
    (h : decide (bits / 2 ^ 63 % 2 = 1) = decide (bits' / 2 ^ 63 % 2 = 1)) :
    bits / 2 ^ 63 % 2 = bits' / 2 ^ 63 % 2 := by
  rw [decide_eq_decide] at h
  omega

theorem ofBits_inj {bits bits' : Nat} (hb : bits < 2 ^ 64) (hb' : bits' < 2 ^ 64)
    (h : Double.ofBits bits = Double.ofBits bits') (hnumber : Double.ofBits bits ≠ .notANumber) :
    bits = bits' := by
  have hmod : bits % 2 ^ 52 < 2 ^ 52 := Nat.mod_lt _ (by decide)
  have hmod' : bits' % 2 ^ 52 < 2 ^ 52 := Nat.mod_lt _ (by decide)
  simp only [Double.ofBits, Nat.pow_eq] at h hnumber
  split_ifs at h hnumber <;> simp only [Double.infinite.injEq, Double.finite.injEq, reduceCtorEq,
    not_true_eq_false, ne_eq] at h hnumber
  · exact bits_eq_of_fields hb hb' (sign_eq h) (by omega) (by omega)
  · exact bits_eq_of_fields hb hb' (sign_eq h.1) (by omega) (by omega)
  · omega
  · omega
  · exact bits_eq_of_fields hb hb' (sign_eq h.1) (by omega) (by omega)

theorem toBits_of_notANumber (h : Double.ofFloat x = .notANumber) :
    x.toModel.toBits.toBitVec = Float.Model.UnpackedFloat.packedNaN .binary64 := by
  have hbits : x.toBits = x.toModel.toBits := rfl
  simp only [Double.ofFloat, Double.ofBits, Nat.pow_eq, hbits] at h
  split_ifs at h with hmax hfraction
  refine x.toModel.valid.eq_packedNaN ?_ ?_
  · apply BitVec.eq_of_toNat_eq
    simpa [Float.Model.UnpackedFloat.unpackExponent, Nat.shiftRight_eq_div_pow] using hmax
  · intro hzero
    have hnat := congrArg BitVec.toNat hzero
    exact hfraction (by simpa [Float.Model.UnpackedFloat.unpackMantissa] using hnat)

theorem ofFloat_injective : Function.Injective Double.ofFloat := by
  intro x y h
  have hbits : x.toModel.toBits.toBitVec = y.toModel.toBits.toBitVec := by
    by_cases hnumber : Double.ofFloat x = .notANumber
    · rw [toBits_of_notANumber hnumber, toBits_of_notANumber (h ▸ hnumber)]
    · exact BitVec.eq_of_toNat_eq
        (ofBits_inj x.toBits.toNat_lt y.toBits.toNat_lt h hnumber)
  obtain ⟨⟨bits, hvalid⟩⟩ := x
  obtain ⟨⟨bits', hvalid'⟩⟩ := y
  obtain rfl : bits = bits' := UInt64.toBitVec_inj.1 hbits
  rfl

end Lox.Decimal
