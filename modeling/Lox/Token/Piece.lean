import Lox.Token

namespace Lox

inductive Piece where
  | token (kind : TokenKind)
  | blank (c : Char)
  | newline
  /-- From two slashes up to the end of the line. -/
  | comment (text : List Char)
  /-- A character that begins nothing. -/
  | unexpected (c : Char)
  /-- A quote without a closing one, with all that follows it. -/
  | unterminated (text : List Char)
deriving DecidableEq, Repr

namespace Piece

def chars : Piece → List Char
  | token kind => kind.lexeme.toList
  | blank c => [c]
  | newline => ['\n']
  | comment text => '/' :: '/' :: text
  | unexpected c => [c]
  | unterminated text => '"' :: text

end Piece

namespace Scan

def isBlank (c : Char) : Bool := c = ' ' || c = '\r' || c = '\t'

def isDigit (c : Char) : Bool := '0' ≤ c && c ≤ '9'

def isLetter (c : Char) : Bool := ('a' ≤ c && c ≤ 'z') || ('A' ≤ c && c ≤ 'Z') || c = '_'

def isWordChar (c : Char) : Bool := isLetter c || isDigit c

/-- Symbols that an equals sign extends to another symbol. -/
def extendedSymbol? : Char → Option (Symbol × Symbol)
  | '!' => some (.bang, .bangEqual)
  | '=' => some (.equal, .equalEqual)
  | '>' => some (.greater, .greaterEqual)
  | '<' => some (.less, .lessEqual)
  | _ => none

/-- Symbols that nothing extends. -/
def simpleSymbol? : Char → Option Symbol
  | '(' => some .leftParen
  | ')' => some .rightParen
  | '\x7b' => some .leftBrace
  | '\x7d' => some .rightBrace
  | ',' => some .comma
  | '.' => some .dot
  | '-' => some .minus
  | '+' => some .plus
  | ';' => some .semicolon
  | '*' => some .star
  | _ => none

/-- A word is a keyword if all of it is, else an identifier. -/
def word (text : String) : TokenKind :=
  match Keyword.ofText? text with
  | some k => .keyword k
  | none => .identifier text

/-- The part of a number after its whole part: a point with at least one digit after it. -/
def fraction : List Char → List Char
  | '.' :: d :: rest => if isDigit d then '.' :: d :: rest.takeWhile isDigit else []
  | _ => []

/-- The first piece of a text that begins with `c`, and the text after it. -/
def next (c : Char) (rest : List Char) : Piece × List Char :=
  if isLetter c then
    (.token (word (String.ofList (c :: rest.takeWhile isWordChar))), rest.dropWhile isWordChar)
  else if isDigit c then
    let whole := rest.takeWhile isDigit
    let after := rest.dropWhile isDigit
    let part := fraction after
    (.token (.number (String.ofList (c :: (whole ++ part)))), after.drop part.length)
  else if isBlank c then (.blank c, rest)
  else if c = '\n' then (.newline, rest)
  else if c = '"' then
    match rest.dropWhile (· ≠ '"') with
    | [] => (.unterminated rest, [])
    | _ :: after => (.token (.string (String.ofList (rest.takeWhile (· ≠ '"')))), after)
  else if c = '/' then
    match rest with
    | '/' :: rest => (.comment (rest.takeWhile (· ≠ '\n')), rest.dropWhile (· ≠ '\n'))
    | _ => (.token (.symbol .slash), rest)
  else
    match extendedSymbol? c, rest with
    | some (_, long), '=' :: rest => (.token (.symbol long), rest)
    | some (short, _), rest => (.token (.symbol short), rest)
    | none, rest =>
      match simpleSymbol? c with
      | some s => (.token (.symbol s), rest)
      | none => (.unexpected c, rest)

theorem dropWhile_length_le (p : Char → Bool) (cs : List Char) :
    (cs.dropWhile p).length ≤ cs.length :=
  (List.dropWhile_suffix p).length_le

theorem next_length_le (c : Char) (rest : List Char) : (next c rest).2.length ≤ rest.length := by
  unfold next
  repeat' split
  all_goals simp only [List.length_nil, List.length_drop, Nat.le_refl, Nat.zero_le]
  · exact dropWhile_length_le _ _
  · have := dropWhile_length_le isDigit rest
    omega
  · rename_i h
    have := dropWhile_length_le (fun x => decide (x ≠ '"')) rest
    rw [h, List.length_cons] at this
    omega
  · have := dropWhile_length_le (fun x => decide (x ≠ '\n')) ‹_›
    simp only [List.length_cons]
    omega
  · simp only [List.length_cons]
    omega

/-- Cuts a text into pieces, which are put, reversed, onto `done`. -/
def cutOnto (done : List Piece) : List Char → List Piece
  | [] => done
  | c :: rest => cutOnto ((next c rest).1 :: done) (next c rest).2
termination_by cs => cs.length
decreasing_by exact Nat.lt_succ_of_le (next_length_le c rest)

def cut (cs : List Char) : List Piece := (cutOnto [] cs).reverse

theorem cutOnto_eq (done : List Piece) (cs : List Char) :
    cutOnto done cs = cutOnto [] cs ++ done := by
  match cs with
  | [] => simp [cutOnto]
  | c :: rest =>
    have := next_length_le c rest
    rw [cutOnto, cutOnto_eq, cutOnto, cutOnto_eq [_], List.append_assoc]
    rfl
termination_by cs.length

@[simp] theorem cut_nil : cut [] = [] := by simp [cut, cutOnto]

theorem cut_cons (c : Char) (rest : List Char) :
    cut (c :: rest) = (next c rest).1 :: cut (next c rest).2 := by
  rw [cut, cutOnto, cutOnto_eq, List.reverse_append]
  rfl

end Scan

end Lox
