namespace Lox.Decimal

/-- The whole number nearest to `num / den`, an even one in a tie. -/
def roundDiv (num den : Nat) : Nat :=
  let q := num / den
  let r := num % den
  if den < 2 * r ∨ (2 * r = den ∧ q % 2 = 1) then q + 1 else q

def scaleDown (num den : Nat) (e : Int) : Nat × Nat :=
  (num * Nat.pow 2 (-e).toNat, den * Nat.pow 2 e.toNat)

/-- The exponent of the last place of the double nearest to `num / den`: it leaves a significand of
53 bits, or fewer at the lower end of the range. -/
def lastPlace (num den : Nat) : Int :=
  let e : Int := (num.log2 : Int) - (den.log2 : Int) - 52
  let (n, d) := scaleDown num den e
  max (if n < d * Nat.pow 2 52 then e - 1 else e) (-1074)

/-- The bits of infinity, which are those of the first value past the largest finite double. -/
def infiniteBits : Nat := 2047 * Nat.pow 2 52

/-- The bits of the double nearest to `num / den`. Since a significand that rounds up to `2 ^ 53`
carries into the exponent field, one sum covers normal, subnormal and carried values. -/
def nearestBits (num den : Nat) : Nat :=
  if num = 0 then 0
  else
    let e := lastPlace num den
    let (n, d) := scaleDown num den e
    min ((e + 1074).toNat * Nat.pow 2 52 + roundDiv n d) infiniteBits

/-- All finite doubles but zero lie between `10 ^ (-powerBound)` and `10 ^ powerBound`. -/
def powerBound : Nat := 400

/-- The bits of the double nearest to `coefficient * 10 ^ exponent`. A number far out of range is
infinite or zero, and its power of ten is not computed. -/
def decimalBits (coefficient : Nat) (exponent : Int) : Nat :=
  if coefficient = 0 ∨ exponent + coefficient.log2 + 1 < -powerBound then 0
  else if powerBound < exponent then infiniteBits
  else nearestBits (coefficient * Nat.pow 10 exponent.toNat) (Nat.pow 10 (-exponent).toNat)

def nearest (negative : Bool) (coefficient : Nat) (exponent : Int) : Float :=
  let bits := decimalBits coefficient exponent
  Float.ofBits (UInt64.ofNat (if negative then Nat.pow 2 63 + bits else bits))

def digitsValue (digits : List Char) : Nat :=
  digits.foldl (fun n c => 10 * n + (c.toNat - '0'.toNat)) 0

/-- The double nearest to a number written as digits, or as digits, a point and digits. -/
def ofNumeral (text : String) : Float :=
  let whole := text.toList.takeWhile (· ≠ '.')
  let fraction := (text.toList.dropWhile (· ≠ '.')).drop 1
  nearest false (digitsValue (whole ++ fraction)) (-(fraction.length : Int))

end Lox.Decimal
