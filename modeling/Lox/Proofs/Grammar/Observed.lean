import Lox.Grammar.Statement

namespace Lox
set_option autoImplicit true

/-- An attempt with the tokens left before and behind it, and whether it broke off. -/
structure Call where
  attempt : Grammar.Attempt
  start : List Token
  stop : List Token
  broke : Bool

/-- A reply, with the tokens left wherever the parser looked at the next one, and its calls. -/
structure Observation (α : Type) where
  reply : Reply α
  looks : List (List Token) := []
  calls : List Call := []

def Observed (α : Type) : Type := List Token → Observation α

namespace Observed

variable {α β : Type}

protected def pure (a : α) : Observed α := fun ts => { reply := { result := some a, rest := ts } }

protected def bind (p : Observed α) (f : α → Observed β) : Observed β := fun ts =>
  match p ts with
  | ⟨⟨some a, errors, rest⟩, looks, calls⟩ =>
    let run := f a rest
    { reply := { run.reply with errors := errors ++ run.reply.errors }
      looks := looks ++ run.looks
      calls := calls ++ run.calls }
  | ⟨⟨none, errors, rest⟩, looks, calls⟩ => ⟨⟨none, errors, rest⟩, looks, calls⟩

instance : Monad Observed where
  pure := Observed.pure
  bind := Observed.bind

/-- A parser that looks at no token but the next. -/
def look (p : Parser α) : Observed α := fun ts => { reply := p ts, looks := [ts] }

/-- Puts an attempt onto the calls made in it. -/
def attempt (part : Grammar.Attempt) (p : Observed α) : Observed α := fun ts =>
  let run := p ts
  { run with calls := ⟨part, ts, run.reply.rest, run.reply.result.isNone⟩ :: run.calls }

/-- Where `Grammar.resync` looks on its way. -/
def skipped : List Token → List (List Token)
  | [] => [[]]
  | t :: rest =>
    (t :: rest) ::
      if t.kind = .symbol .semicolon then []
      else
        match rest with
        | ⟨.keyword k, _⟩ :: _ => if k.startsStatement then [rest] else skipped rest
        | _ => skipped rest

/-- Runs `p`. If it breaks off, goes on behind the error. -/
def recover (p : Observed α) : Observed (Option α) := fun ts =>
  match p ts with
  | ⟨⟨some a, errors, rest⟩, looks, calls⟩ => ⟨⟨some (some a), errors, rest⟩, looks, calls⟩
  | ⟨⟨none, errors, rest⟩, looks, calls⟩ =>
    ⟨⟨some none, errors, Grammar.resync rest⟩, looks ++ skipped rest, calls⟩

instance : Grammar.Reading Observed where
  look := look
  attempt := attempt
  recover := recover

def program (n : Nat) : Observed (Program Grammar.Unresolved) := Grammar.allDeclarations n

end Observed

end Lox
