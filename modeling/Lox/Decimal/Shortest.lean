import Lox.Decimal.Double

namespace Lox.Decimal

/-- The positive number `d.ddd * 10 ^ exponent`, its digits most significant first. -/
structure Digits where
  digits : List Char
  exponent : Int
deriving DecidableEq, Repr

/-- Compares `a * 10 ^ p` with `b * 2 ^ q`. -/
def compareScaled (a : Nat) (p : Int) (b : Nat) (q : Int) : Ordering :=
  compare (a * Nat.pow 10 p.toNat * Nat.pow 2 (-q).toNat)
    (b * Nat.pow 2 q.toNat * Nat.pow 10 (-p).toNat)

/-- The reals that round to `m * 2 ^ q` lie between two halfway points. In units of
`2 ^ (q - 2)` these are `4 * m - 2`, or `4 * m - 1` at a narrow step, and `4 * m + 2`; an even
significand owns both. -/
structure Interval where
  low : Nat
  high : Nat
  closed : Bool
  unit : Int

def Interval.around (m : Nat) (q : Int) (narrow : Bool) : Interval :=
  { low := if narrow then 4 * m - 1 else 4 * m - 2, high := 4 * m + 2, closed := m % 2 = 0,
    unit := q - 2 }

/-- Whether `c * 10 ^ p` reads back. -/
def Interval.contains (i : Interval) (c : Nat) (p : Int) : Bool :=
  (match compareScaled c p i.low i.unit with
    | .lt => false
    | .eq => i.closed
    | .gt => true) &&
  (match compareScaled c p i.high i.unit with
    | .lt => true
    | .eq => i.closed
    | .gt => false)

/-- Number of decimal digits, none for zero. -/
def digitCount (n : Nat) : Nat := if n = 0 then 0 else (Nat.toDigits 10 n).length

def leadingExponent (num den : Nat) : Int :=
  if den ≤ num then (digitCount (num / den) : Int) - 1
  else -(digitCount ((den + num - 1) / num - 1) : Int)

/-- Of the two multiples of `10 ^ p` around `num / den` the one in the interval. If both are, the
nearer one, an even one in a tie. -/
def candidate? (i : Interval) (num den : Nat) (p : Int) : Option Nat :=
  let n := num * Nat.pow 10 (-p).toNat
  let d := den * Nat.pow 10 p.toNat
  let c := n / d
  let r := n % d
  match i.contains c p, i.contains (c + 1) p with
  | true, false => some c
  | false, true => some (c + 1)
  | true, true => some (if 2 * r < d ∨ (2 * r = d ∧ c % 2 = 0) then c else c + 1)
  | false, false => none

/-- The decimal `c * 10 ^ p` without trailing zeros. -/
def Digits.ofScaled (c : Nat) (p : Int) : Digits :=
  let digits := Nat.toDigits 10 c
  { digits := (digits.reverse.dropWhile (· = '0')).reverse, exponent := digits.length - 1 + p }

/-- Tries `length` digits and then, `more` times, one digit more. -/
def shortestFrom (i : Interval) (num den : Nat) (lead : Int) (length : Nat) : Nat → Digits
  | 0 =>
    let p := lead - length + 1
    .ofScaled (num * Nat.pow 10 (-p).toNat / (den * Nat.pow 10 p.toNat)) p
  | more + 1 =>
    let p := lead - length + 1
    match candidate? i num den p with
    | some c => .ofScaled c p
    | none => shortestFrom i num den lead (length + 1) more

/-- Seventeen digits always read back. -/
def shortest (m : Nat) (q : Int) (narrow : Bool) : Digits :=
  let num := m * Nat.pow 2 q.toNat
  let den := Nat.pow 2 (-q).toNat
  shortestFrom (.around m q narrow) num den (leadingExponent num den) 1 17

end Lox.Decimal
