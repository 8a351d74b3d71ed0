import Lox.Decimal.Shortest

namespace Lox.Decimal

/-- Decisions on how decimal digits are laid out. -/
structure Layout where
  /-- Leading exponents from here on are written positionally, -/
  positionalFrom : Int
  /-- up to but not including this one. -/
  positionalTo : Int
  /-- Least number of exponent digits. -/
  exponentWidth : Nat

/-- Numbers are positional from `0.0001` to below `10 ^ 16`, and exponents have a sign and at least
two digits. -/
def numberLayout : Layout := { positionalFrom := -4, positionalTo := 16, exponentWidth := 2 }

/-- Positional form, with at least one digit on each side of the point. -/
def Digits.positional (d : Digits) : List Char :=
  if d.exponent < 0 then
    '0' :: '.' :: (List.replicate (-d.exponent - 1).toNat '0' ++ d.digits)
  else
    let places := d.exponent.toNat + 1
    let whole := d.digits.take places ++ List.replicate (places - d.digits.length) '0'
    let fraction := d.digits.drop places
    whole ++ '.' :: (if fraction.isEmpty then ['0'] else fraction)

/-- Form with an exponent. A single digit stands without a point. -/
def Digits.scientific (width : Nat) (d : Digits) : List Char :=
  let fraction := d.digits.drop 1
  let power := Nat.toDigits 10 d.exponent.natAbs
  d.digits.take 1 ++ (if fraction.isEmpty then [] else '.' :: fraction) ++
    'e' :: (if d.exponent < 0 then '-' else '+') ::
      (List.replicate (width - power.length) '0' ++ power)

def Layout.write (l : Layout) (d : Digits) : List Char :=
  if l.positionalFrom ≤ d.exponent ∧ d.exponent < l.positionalTo then d.positional
  else d.scientific l.exponentWidth

def signed (negative : Bool) (text : List Char) : String :=
  String.ofList (if negative then '-' :: text else text)

/-- Text of a number that reads back as the same double. -/
def text (x : Float) : String :=
  match Double.ofFloat x with
  | .notANumber => "nan"
  | .infinite negative => signed negative "inf".toList
  | .finite negative 0 _ _ => signed negative "0.0".toList
  | .finite negative m q narrow => signed negative (numberLayout.write (shortest m q narrow))

/-- Text of a number as a program prints it: a whole number with all its digits and without a point,
any other as in `text`. -/
def printed (x : Float) : String :=
  match Double.ofFloat x with
  | .finite negative m q _ =>
    match whole? m q with
    | some n => signed negative (Nat.toDigits 10 n)
    | none => text x
  | _ => text x

end Lox.Decimal
