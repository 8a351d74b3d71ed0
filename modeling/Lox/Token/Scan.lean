import Lox.Token.Piece

namespace Lox

inductive LexicalFault where
  | unexpectedCharacter
  | unterminatedString
deriving DecidableEq, Repr

def LexicalFault.message : LexicalFault → String
  | .unexpectedCharacter => "Unexpected character."
  | .unterminatedString => "Unterminated string."

structure LexicalError where
  fault : LexicalFault
  line : Nat
deriving DecidableEq, Repr

/-- The tokens of a text and, in order, its lexical errors. -/
structure Scanned where
  list : TokenList
  errors : List LexicalError
deriving DecidableEq, Repr

namespace Scan

/-- A place between two pieces: the line there and the number of characters before it. -/
structure Cursor where
  line : Nat := 1
  offset : Nat := 0
deriving DecidableEq, Repr

def Cursor.pass (c : Cursor) (p : Piece) : Cursor :=
  { line := c.line + p.chars.count '\n', offset := c.offset + p.chars.length }

/-- A piece is located by the line on which it ends and the offset at which it begins. -/
def Cursor.locate (c : Cursor) (p : Piece) : Pos × Piece :=
  (⟨(c.pass p).line, c.offset⟩, p)

/-- Moves past a piece and puts it onto the located ones. -/
def advance (s : Cursor × List (Pos × Piece)) (p : Piece) : Cursor × List (Pos × Piece) :=
  (s.1.pass p, s.1.locate p :: s.2)

/-- The place behind all pieces, and the pieces with their places, in order. -/
def locate (pieces : List Piece) : Cursor × List (Pos × Piece) :=
  let (c, located) := pieces.foldl advance ({}, [])
  (c, located.reverse)

def token? : Pos × Piece → Option Token
  | (pos, .token kind) => some ⟨kind, pos⟩
  | _ => none

def error? : Pos × Piece → Option LexicalError
  | (pos, .unexpected _) => some ⟨.unexpectedCharacter, pos.line⟩
  | (pos, .unterminated _) => some ⟨.unterminatedString, pos.line⟩
  | _ => none

end Scan

def scan (source : String) : Scanned :=
  let (c, located) := Scan.locate (Scan.cut source.toList)
  { list := { tokens := located.filterMap Scan.token?, lastLine := c.line },
    errors := located.filterMap Scan.error? }

end Lox
