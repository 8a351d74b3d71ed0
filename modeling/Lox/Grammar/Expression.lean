import Lox.Grammar.Parser
import Lox.Tree

namespace Lox.Grammar

open Lox.Parser
open Reading (look)

/-- A parsed tree has no notes on its references. -/
abbrev Unresolved := Unit

/-- Levels of binary operators, from the loosest to the tightest. -/
def equality? : TokenKind → Option BinaryOp
  | .symbol .bangEqual => some .notEqual
  | .symbol .equalEqual => some .equal
  | _ => none

def comparison? : TokenKind → Option BinaryOp
  | .symbol .greater => some .greater
  | .symbol .greaterEqual => some .greaterEqual
  | .symbol .less => some .less
  | .symbol .lessEqual => some .lessEqual
  | _ => none

def term? : TokenKind → Option BinaryOp
  | .symbol .minus => some .subtract
  | .symbol .plus => some .add
  | _ => none

def factor? : TokenKind → Option BinaryOp
  | .symbol .slash => some .divide
  | .symbol .star => some .multiply
  | _ => none

def unary? : TokenKind → Option UnaryOp
  | .symbol .bang => some .not
  | .symbol .minus => some .negate
  | _ => none

/-- The expression that a single token stands for. -/
def atom? (pos : Pos) : TokenKind → Option (Expr Unresolved)
  | .keyword .falseWord => some (.literal (.bool false))
  | .keyword .trueWord => some (.literal (.bool true))
  | .keyword .nilWord => some (.literal .nil)
  | .keyword .thisWord => some (.receiver pos ())
  | .number text => some (.literal (.number (Decimal.ofNumeral text)))
  | .string text => some (.literal (.string text))
  | .identifier name => some (.read ⟨name, pos⟩ ())
  | _ => none

def atom : Parser (Option (Expr Unresolved)) := fun ts =>
  match ts with
  | [] => { result := some none, rest := [] }
  | t :: rest =>
    match atom? t.pos t.kind with
    | some e => { result := some (some e), rest }
    | none => { result := some none, rest := t :: rest }

variable {P : Type → Type} [Monad P] [Reading P]

def primary (expr : P (Expr Unresolved)) : P (Expr Unresolved) := do
  match ← look atom with
  | some e => return e
  | none =>
    if ← look (accept (.symbol .leftParen)) then
      let inner ← expr
      let _ ← look (symbol .rightParen .groupingClose)
      return .grouping inner
    else look (fail .expression)

/-- One more argument, with a report if there are enough already. -/
def argument (expr : P (Expr Unresolved)) (args : List (Expr Unresolved)) :
    P (List (Expr Unresolved)) := do
  if maxArguments ≤ args.length then look (report .tooManyArguments)
  return args ++ [← expr]

def nextArgument? (expr : P (Expr Unresolved)) (args : List (Expr Unresolved)) :
    P (Option (List (Expr Unresolved))) := do
  if ← look (accept (.symbol .comma)) then some <$> argument expr args else return none

def arguments (n : Nat) (expr : P (Expr Unresolved)) : P (List (Expr Unresolved)) := do
  if ← look (nextIs (.symbol .rightParen)) then return []
  iterate (nextArgument? expr) n (← argument expr [])

def suffix? (n : Nat) (expr : P (Expr Unresolved)) (e : Expr Unresolved) :
    P (Option (Expr Unresolved)) := do
  if ← look (accept (.symbol .leftParen)) then
    let args ← arguments n expr
    let paren ← look (symbol .rightParen .argumentsClose)
    return some (.call e args paren.pos)
  else if ← look (accept (.symbol .dot)) then
    let (name, token) ← look (ident .propertyName)
    return some (.get e ⟨name, token.pos⟩)
  else return none

def call (n : Nat) (expr : P (Expr Unresolved)) : P (Expr Unresolved) := do
  iterate (suffix? n expr) n (← primary expr)

def nextUnary? (ops : List (UnaryOp × Pos)) : P (Option (List (UnaryOp × Pos))) := do
  match ← look (take? unary?) with
  | some (op, token) => return some ((op, token.pos) :: ops)
  | none => return none

/-- Unary operators before an operand, the last of which applies first. -/
def unary (n : Nat) (expr : P (Expr Unresolved)) : P (Expr Unresolved) := do
  let ops ← iterate nextUnary? n []
  let operand ← call n expr
  return ops.foldl (fun e (op, pos) => .unary op pos e) operand

def nextOperand? {ω : Type} (op? : TokenKind → Option ω)
    (join : Expr Unresolved → ω → Pos → Expr Unresolved → Expr Unresolved) (operand : P (Expr Unresolved))
    (left : Expr Unresolved) : P (Option (Expr Unresolved)) := do
  match ← look (take? op?) with
  | some (op, token) => return some (join left op token.pos (← operand))
  | none => return none

/-- Operands between operators that `op?` finds, joined from left to right. -/
def chain {ω : Type} (op? : TokenKind → Option ω)
    (join : Expr Unresolved → ω → Pos → Expr Unresolved → Expr Unresolved) (n : Nat)
    (operand : P (Expr Unresolved)) : P (Expr Unresolved) := do
  iterate (nextOperand? op? join operand) n (← operand)

def factor (n : Nat) (expr : P (Expr Unresolved)) : P (Expr Unresolved) :=
  chain factor? .binary n (unary n expr)

def term (n : Nat) (expr : P (Expr Unresolved)) : P (Expr Unresolved) :=
  chain term? .binary n (factor n expr)

def comparison (n : Nat) (expr : P (Expr Unresolved)) : P (Expr Unresolved) :=
  chain comparison? .binary n (term n expr)

def equality (n : Nat) (expr : P (Expr Unresolved)) : P (Expr Unresolved) :=
  chain equality? .binary n (comparison n expr)

def conjunction (n : Nat) (expr : P (Expr Unresolved)) : P (Expr Unresolved) :=
  chain (exactly (.keyword .andWord)) (fun left _ _ right => .logical left .and right) n
    (equality n expr)

def disjunction (n : Nat) (expr : P (Expr Unresolved)) : P (Expr Unresolved) :=
  chain (exactly (.keyword .orWord)) (fun left _ _ right => .logical left .or right) n
    (conjunction n expr)

/-- The assignment to a target, which must be a variable or a property. -/
def assignTo? (target value : Expr Unresolved) : Option (Expr Unresolved) :=
  match target with
  | .read name _ => some (.assign name () value)
  | .get object name => some (.set object name value)
  | _ => none

/-- The target is read as any other expression and then checked. -/
def assignment (n : Nat) (expr : P (Expr Unresolved)) : P (Expr Unresolved) := do
  let target ← disjunction n expr
  match ← look (take? (exactly (.symbol .equal))) with
  | none => return target
  | some (_, equals) =>
    let value ← expr
    match assignTo? target value with
    | some e => return e
    | none =>
      look (reportAt .invalidTarget equals)
      return target

/-- An expression, if there are fewer than `n` tokens. -/
def expression : Nat → P (Expr Unresolved)
  | 0 => look (fail .expression)
  | n + 1 => assignment n (expression n)

end Lox.Grammar
