import Lox.Grammar.Fault

namespace Lox

/-- What a parser gives: its result, none if it broke off; the errors it reported, in order; and the
tokens left. -/
structure Reply (α : Type) where
  result : Option α
  errors : List SyntaxError := []
  rest : List Token

def Parser (α : Type) : Type := List Token → Reply α

namespace Parser

variable {α β : Type}

protected def pure (a : α) : Parser α := fun ts => { result := some a, rest := ts }

/-- Goes on with `f` on the tokens that `p` left, unless `p` broke off. -/
protected def bind (p : Parser α) (f : α → Parser β) : Parser β := fun ts =>
  match p ts with
  | ⟨some a, errors, rest⟩ =>
    let reply := f a rest
    { reply with errors := errors ++ reply.errors }
  | ⟨none, errors, rest⟩ => ⟨none, errors, rest⟩

instance : Monad Parser where
  pure := Parser.pure
  bind := Parser.bind

def report (fault : SyntaxFault) : Parser Unit := fun ts =>
  { result := some (), errors := [⟨fault, ts.head?⟩], rest := ts }

def reportAt (fault : SyntaxFault) (token : Token) : Parser Unit := fun ts =>
  { result := some (), errors := [⟨fault, some token⟩], rest := ts }

def fail (fault : SyntaxFault) : Parser α := fun ts =>
  { result := none, errors := [⟨fault, ts.head?⟩], rest := ts }

def peek : Parser (Option Token) := fun ts => { result := some ts.head?, rest := ts }

/-- Takes the next token if `f` finds something in it. -/
def take? (f : TokenKind → Option β) : Parser (Option (β × Token)) := fun ts =>
  match ts with
  | [] => { result := some none, rest := [] }
  | t :: rest =>
    match f t.kind with
    | some b => { result := some (some (b, t)), rest }
    | none => { result := some none, rest := t :: rest }

/-- Takes the next token if `f` finds something in it, else breaks off. -/
def expect (f : TokenKind → Option β) (fault : SyntaxFault) : Parser (β × Token) := do
  match ← take? f with
  | some found => return found
  | none => fail fault

def exactly (kind other : TokenKind) : Option Unit := if other = kind then some () else none

def identifier? : TokenKind → Option String
  | .identifier name => some name
  | _ => none

def nextIs (kind : TokenKind) : Parser Bool := fun ts =>
  { result := some (ts.head?.any (·.kind = kind)), rest := ts }

def accept (kind : TokenKind) : Parser Bool := do
  return (← take? (exactly kind)).isSome

def symbol (s : Symbol) (fault : SyntaxFault) : Parser Token :=
  Prod.snd <$> expect (exactly (.symbol s)) fault

def ident (fault : SyntaxFault) : Parser (String × Token) := expect identifier? fault

/-- Goes from `a` to the next value as long as `step` gives one, at most `n` times. A step that gives
one uses a token, so `n` is no limit as long as there are at most `n` tokens. -/
def iterate {P : Type → Type} [Monad P] (step : α → P (Option α)) : Nat → α → P α
  | 0, a => pure a
  | n + 1, a => do
    match ← step a with
    | some b => iterate step n b
    | none => return a

/-- Runs `p`. If it breaks off, goes on without a result from where `resume` says. -/
def recover (resume : List Token → List Token) (p : Parser α) : Parser (Option α) := fun ts =>
  match p ts with
  | ⟨some a, errors, rest⟩ => ⟨some (some a), errors, rest⟩
  | ⟨none, errors, rest⟩ => ⟨some none, errors, resume rest⟩

end Parser

namespace Grammar

/-- Where reading goes on after an error: behind the next semicolon, or before the next word that
begins a statement. At least one token is skipped. -/
def resync : List Token → List Token
  | [] => []
  | t :: rest =>
    if t.kind = .symbol .semicolon then rest
    else
      match rest with
      | ⟨.keyword k, _⟩ :: _ => if k.startsStatement then rest else resync rest
      | _ => resync rest

/-- What a loop of the grammar sets out to read. -/
inductive Attempt where
  | declaration
  | method
deriving DecidableEq, Repr

/-- What the rules of the grammar are made of, beside what any monad has: a parser that looks at the
next token only, a part that a loop sets out to read, and going on behind an error. -/
class Reading (P : Type → Type) where
  look {α : Type} : Parser α → P α
  attempt {α : Type} : Attempt → P α → P α
  recover {α : Type} : P α → P (Option α)

instance : Reading Parser where
  look p := p
  attempt _ p := p
  recover p := p.recover resync

@[simp] theorem look_self {α : Type} (p : Parser α) : (Reading.look p : Parser α) = p := rfl

@[simp] theorem attempt_self {α : Type} (part : Attempt) (p : Parser α) :
    Reading.attempt part p = p := rfl

end Grammar

end Lox
