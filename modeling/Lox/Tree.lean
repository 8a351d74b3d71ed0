import Lox.Token

namespace Lox

structure Ident where
  name : String
  pos : Pos
deriving DecidableEq, Repr

inductive Literal where
  | nil
  | bool (b : Bool)
  | number (x : Float)
  | string (s : String)

inductive UnaryOp where
  | negate
  | not
deriving DecidableEq, Repr

/-- Operators that evaluate both operands. -/
inductive BinaryOp where
  | notEqual | equal | greater | greaterEqual | less | lessEqual | subtract | add | divide | multiply
deriving DecidableEq, Repr

/-- Operators that may leave their right operand alone. -/
inductive LogicalOp where
  | or
  | and
deriving DecidableEq, Repr

def UnaryOp.text : UnaryOp → String
  | negate => Symbol.minus.text
  | not => Symbol.bang.text

def BinaryOp.symbol : BinaryOp → Symbol
  | notEqual => .bangEqual
  | equal => .equalEqual
  | greater => .greater
  | greaterEqual => .greaterEqual
  | less => .less
  | lessEqual => .lessEqual
  | subtract => .minus
  | add => .plus
  | divide => .slash
  | multiply => .star

def BinaryOp.text (op : BinaryOp) : String := op.symbol.text

def LogicalOp.text : LogicalOp → String
  | or => Keyword.orWord.text
  | and => Keyword.andWord.text

/-- Expressions. A place is kept where a runtime error can point at it. -/
inductive Expr (ρ : Type) where
  | literal (value : Literal)
  | grouping (inner : Expr ρ)
  | unary (op : UnaryOp) (pos : Pos) (operand : Expr ρ)
  | binary (left : Expr ρ) (op : BinaryOp) (pos : Pos) (right : Expr ρ)
  | logical (left : Expr ρ) (op : LogicalOp) (right : Expr ρ)
  | read (name : Ident) (ref : ρ)
  | assign (name : Ident) (ref : ρ) (value : Expr ρ)
  /-- A call, with the place of its closing parenthesis. -/
  | call (callee : Expr ρ) (args : List (Expr ρ)) (paren : Pos)
  | get (object : Expr ρ) (name : Ident)
  | set (object : Expr ρ) (name : Ident) (value : Expr ρ)
  /-- The instance a method was called on. -/
  | receiver (pos : Pos) (ref : ρ)

mutual

inductive Stmt (ρ : Type) where
  | expression (e : Expr ρ)
  | print (e : Expr ρ)
  | varDecl (name : Ident) (init : Option (Expr ρ))
  | block (body : List (Stmt ρ))
  | branch (condition : Expr ρ) (yes : Stmt ρ) (no : Option (Stmt ρ))
  | loop (condition : Expr ρ) (body : Stmt ρ)
  | funDecl (decl : FunDecl ρ)
  | ret (pos : Pos) (value : Option (Expr ρ))
  | classDecl (name : Ident) (methods : List (FunDecl ρ))

/-- A function or method: its name, parameters and body. -/
structure FunDecl (ρ : Type) where
  name : Ident
  params : List Ident
  body : List (Stmt ρ)

end

abbrev Program (ρ : Type) := List (Stmt ρ)

end Lox
