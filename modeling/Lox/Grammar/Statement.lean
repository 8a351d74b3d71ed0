import Lox.Grammar.Expression

namespace Lox.Grammar

open Lox.Parser
open Reading (look attempt)

variable {P : Type → Type} [Monad P] [Reading P]

/-- A variable declaration, behind its first word. -/
def varDecl (expr : P (Expr Unresolved)) : P (Stmt Unresolved) := do
  let (name, token) ← look (ident .variableName)
  let init ← if ← look (accept (.symbol .equal)) then some <$> expr else pure none
  let _ ← look (symbol .semicolon .variableEnd)
  return .varDecl ⟨name, token.pos⟩ init

def expressionStmt (expr : P (Expr Unresolved)) : P (Stmt Unresolved) := do
  let e ← expr
  let _ ← look (symbol .semicolon .expressionEnd)
  return .expression e

def printStmt (expr : P (Expr Unresolved)) : P (Stmt Unresolved) := do
  let e ← expr
  let _ ← look (symbol .semicolon .printEnd)
  return .print e

/-- An expression, unless the next token is `stop`. -/
def optionalExpr (expr : P (Expr Unresolved)) (stop : Symbol) :
    P (Option (Expr Unresolved)) := do
  if ← look (nextIs (.symbol stop)) then return none else some <$> expr

/-- A return statement, behind its first word, which stands at `pos`. -/
def returnStmt (expr : P (Expr Unresolved)) (pos : Pos) : P (Stmt Unresolved) := do
  let value ← optionalExpr expr .semicolon
  let _ ← look (symbol .semicolon .returnEnd)
  return .ret pos value

/-- One more parameter, with a report if there are enough already. -/
def parameter (params : List Ident) : P (List Ident) := do
  if maxArguments ≤ params.length then look (report .tooManyParameters)
  let (name, token) ← look (ident .parameterName)
  return params ++ [⟨name, token.pos⟩]

def nextParameter? (params : List Ident) : P (Option (List Ident)) := do
  if ← look (accept (.symbol .comma)) then some <$> parameter params else return none

def parameters (n : Nat) : P (List Ident) := do
  if ← look (nextIs (.symbol .rightParen)) then return []
  iterate nextParameter? n (← parameter [])

/-- One more item before a closing brace or the end of the text, put onto the items so far. -/
def nextItem? {α : Type} (item : P (Option α)) (done : List α) :
    P (Option (List α)) := do
  match ← look peek with
  | none => return none
  | some t =>
    if t.kind = .symbol .rightBrace then return none
    else return some ((← item).toList ++ done)

/-- The items up to a closing brace or the end of the text. -/
def items {α : Type} (n : Nat) (item : P (Option α)) : P (List α) :=
  List.reverse <$> iterate (nextItem? item) n []

/-- Declarations up to and including a closing brace. -/
def block (n : Nat) (decl : P (Option (Stmt Unresolved))) : P (List (Stmt Unresolved)) := do
  let body ← items n (attempt .declaration decl)
  let _ ← look (symbol .rightBrace .blockClose)
  return body

/-- A function or method, from its name on. -/
def function (n : Nat) (decl : P (Option (Stmt Unresolved))) (kind : FunctionKind) :
    P (FunDecl Unresolved) := do
  let (name, token) ← look (ident (.functionName kind))
  let _ ← look (symbol .leftParen (.functionOpen kind))
  let params ← parameters n
  let _ ← look (symbol .rightParen .parametersClose)
  let _ ← look (symbol .leftBrace (.functionBody kind))
  let body ← block n decl
  return ⟨⟨name, token.pos⟩, params, body⟩

def classDecl (n : Nat) (decl : P (Option (Stmt Unresolved))) : P (Stmt Unresolved) := do
  let (name, token) ← look (ident .className)
  let _ ← look (symbol .leftBrace .classOpen)
  let methods ← items n (some <$> attempt .method (function n decl .method))
  let _ ← look (symbol .rightBrace .classClose)
  return .classDecl ⟨name, token.pos⟩ methods

def ifStmt (expr : P (Expr Unresolved)) (stmt : P (Stmt Unresolved)) : P (Stmt Unresolved) := do
  let _ ← look (symbol .leftParen .ifOpen)
  let condition ← expr
  let _ ← look (symbol .rightParen .ifClose)
  let yes ← stmt
  let no ← if ← look (accept (.keyword .elseWord)) then some <$> stmt else pure none
  return .branch condition yes no

def whileStmt (expr : P (Expr Unresolved)) (stmt : P (Stmt Unresolved)) :
    P (Stmt Unresolved) := do
  let _ ← look (symbol .leftParen .whileOpen)
  let condition ← expr
  let _ ← look (symbol .rightParen .whileClose)
  let body ← stmt
  return .loop condition body

/-- The first clause of a for loop, with its semicolon. -/
def forStart (expr : P (Expr Unresolved)) : P (Option (Stmt Unresolved)) := do
  if ← look (accept (.symbol .semicolon)) then return none
  else if ← look (accept (.keyword .varWord)) then some <$> varDecl expr
  else some <$> expressionStmt expr

/-- A for loop is a while loop: the increment stands behind the body in a block of its own, a missing
condition is true, and a start stands before the loop in a block around both. -/
def forLoop (start : Option (Stmt Unresolved)) (condition increment : Option (Expr Unresolved))
    (body : Stmt Unresolved) : Stmt Unresolved :=
  let body := match increment with
    | some e => .block [body, .expression e]
    | none => body
  let loop := .loop (condition.getD (.literal (.bool true))) body
  match start with
  | some s => .block [s, loop]
  | none => loop

def forStmt (expr : P (Expr Unresolved)) (stmt : P (Stmt Unresolved)) :
    P (Stmt Unresolved) := do
  let _ ← look (symbol .leftParen .forOpen)
  let start ← forStart expr
  let condition ← optionalExpr expr .semicolon
  let _ ← look (symbol .semicolon .forCondition)
  let increment ← optionalExpr expr .rightParen
  let _ ← look (symbol .rightParen .forClose)
  let body ← stmt
  return forLoop start condition increment body

/-- Words and brackets that begin a statement. -/
inductive Opening where
  | function | branch | loop | forLoop | print | ret | block
deriving DecidableEq, Repr

def opening? : TokenKind → Option Opening
  | .keyword .funWord => some .function
  | .keyword .ifWord => some .branch
  | .keyword .whileWord => some .loop
  | .keyword .forWord => some .forLoop
  | .keyword .printWord => some .print
  | .keyword .returnWord => some .ret
  | .symbol .leftBrace => some .block
  | _ => none

/-- A statement with given parsers for what is nested in it. -/
def statementWith (n : Nat) (expr : P (Expr Unresolved)) (decl : P (Option (Stmt Unresolved)))
    (stmt : P (Stmt Unresolved)) : P (Stmt Unresolved) := do
  match ← look (take? opening?) with
  | some (.function, _) => .funDecl <$> function n decl .function
  | some (.branch, _) => ifStmt expr stmt
  | some (.loop, _) => whileStmt expr stmt
  | some (.forLoop, _) => forStmt expr stmt
  | some (.print, _) => printStmt expr
  | some (.ret, token) => returnStmt expr token.pos
  | some (.block, _) => .block <$> block n decl
  | none => expressionStmt expr

/-- A statement, if there are fewer than `n` tokens. -/
def statement (expr : P (Expr Unresolved)) (decl : P (Option (Stmt Unresolved))) :
    Nat → P (Stmt Unresolved)
  | 0 => look (fail .expression)
  | n + 1 => statementWith n expr decl (statement expr decl n)

/-- A declaration or statement, if there are fewer than `n` tokens. After an error reading goes on
behind it, without a result. -/
def declaration (expr : P (Expr Unresolved)) : Nat → P (Option (Stmt Unresolved))
  | 0 => look (fail .expression)
  | n + 1 => Reading.recover do
    if ← look (accept (.keyword .classWord)) then classDecl n (declaration expr n)
    else if ← look (accept (.keyword .varWord)) then varDecl expr
    else statement expr (declaration expr n) (n + 1)

/-- One more declaration before the end of the text, put onto the declarations so far. -/
def nextDecl? (decl : P (Option (Stmt Unresolved))) (done : List (Stmt Unresolved)) :
    P (Option (List (Stmt Unresolved))) := do
  match ← look peek with
  | none => return none
  | some _ => return some ((← attempt .declaration decl).toList ++ done)

/-- All declarations of a text with `n` tokens. Those that contain an error are left out. -/
def allDeclarations (n : Nat) : P (Program Unresolved) :=
  List.reverse <$> iterate (nextDecl? (declaration (expression (n + 1)) (n + 1))) n []

def program (n : Nat) : Parser (Program Unresolved) := allDeclarations n

end Lox.Grammar

namespace Lox

/-- A parsed text: its statements and, in order, its syntax errors. -/
structure Parsed where
  program : Program Grammar.Unresolved
  errors : List SyntaxError

def parse (tokens : List Token) : Parsed :=
  let reply := Grammar.program tokens.length tokens
  { program := reply.result.getD [], errors := reply.errors }

end Lox
