namespace Lox.Text

inductive Utf8Fault where
  | invalidStart
  | invalidContinuation
  | unexpectedEnd
deriving DecidableEq, Repr

def Utf8Fault.message : Utf8Fault → String
  | .invalidStart => "invalid start byte"
  | .invalidContinuation => "invalid continuation byte"
  | .unexpectedEnd => "unexpected end of data"

/-- The first ill-formed sequence: its first byte, its position and its length. -/
structure Utf8Error where
  fault : Utf8Fault
  byte : Nat
  position : Nat
  length : Nat
deriving DecidableEq, Repr

/-- A character of which the first `length` bytes have been read: its first byte, the bits read, the
values allowed for the next byte, and how many plain continuation bytes follow that one. -/
structure Utf8Partial where
  first : Nat
  bits : Nat
  next : Nat × Nat
  more : Nat
  length : Nat := 1

/-- The first byte of a character above ASCII. Overlong forms, surrogates and values above U+10FFFF
are excluded here and by the values allowed for the second byte. -/
def Utf8Partial.start? (b : Nat) : Option Utf8Partial :=
  if b < 0xc2 then none
  else if b < 0xe0 then some { first := b, bits := b - 0xc0, next := (0x80, 0xbf), more := 0 }
  else if b < 0xf0 then
    some { first := b, bits := b - 0xe0, more := 1,
           next := (if b = 0xe0 then 0xa0 else 0x80, if b = 0xed then 0x9f else 0xbf) }
  else if b < 0xf5 then
    some { first := b, bits := b - 0xf0, more := 2,
           next := (if b = 0xf0 then 0x90 else 0x80, if b = 0xf4 then 0x8f else 0xbf) }
  else none

/-- The character so far with one more allowed byte. -/
def Utf8Partial.push (p : Utf8Partial) (b : Nat) : Utf8Partial :=
  { p with bits := p.bits * 64 + (b - 0x80), next := (0x80, 0xbf), more := p.more - 1,
           length := p.length + 1 }

def Utf8Partial.error (p : Utf8Partial) (fault : Utf8Fault) (position : Nat) : Utf8Error :=
  { fault, byte := p.first, position := position - p.length, length := p.length }

/-- Decodes the bytes from `position` on, in the middle of a character if there is a `pending` one.
The characters read are put, reversed, onto `done`. -/
def decodeUtf8Onto (done : List Char) (pending : Option Utf8Partial) (position : Nat) :
    List Nat → Except Utf8Error (List Char)
  | [] =>
    match pending with
    | none => .ok done
    | some p => .error (p.error .unexpectedEnd position)
  | b :: rest =>
    match pending with
    | some p =>
      if p.next.1 ≤ b ∧ b ≤ p.next.2 then
        if p.more = 0 then
          decodeUtf8Onto (Char.ofNat (p.push b).bits :: done) none (position + 1) rest
        else decodeUtf8Onto done (some (p.push b)) (position + 1) rest
      else .error (p.error .invalidContinuation position)
    | none =>
      if b < 0x80 then decodeUtf8Onto (Char.ofNat b :: done) none (position + 1) rest
      else
        match Utf8Partial.start? b with
        | some p => decodeUtf8Onto done (some p) (position + 1) rest
        | none => .error { fault := .invalidStart, byte := b, position, length := 1 }

def decodeUtf8 (bytes : List Nat) : Except Utf8Error (List Char) :=
  List.reverse <$> decodeUtf8Onto [] none 0 bytes

end Lox.Text
