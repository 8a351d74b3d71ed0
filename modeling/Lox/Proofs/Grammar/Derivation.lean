import Lox.Grammar.Statement

namespace Lox.Grammar
set_option autoImplicit true

/-- Levels of expressions, from the loosest to the tightest. -/
inductive Level where
  | expression | disjunction | conjunction | equality | comparison | term | factor | unary | call
  | primary
deriving DecidableEq

namespace Level

def tighter : Level → Level
  | expression => disjunction
  | disjunction => conjunction
  | conjunction => equality
  | equality => comparison
  | comparison => term
  | term => factor
  | factor => unary
  | unary => call
  | call => primary
  | primary => primary

/-- The level at which an operator joins its operands. -/
def ofBinary : BinaryOp → Level
  | .equal | .notEqual => equality
  | .greater | .greaterEqual | .less | .lessEqual => comparison
  | .add | .subtract => term
  | .multiply | .divide => factor

end Level

/-- A token joins what stands before it, at a level, with what stands behind it. -/
inductive Joins : Level → Token → (Expr Unresolved → Expr Unresolved → Expr Unresolved) → Prop where
  | or : Joins .disjunction ⟨.keyword .orWord, p⟩ (.logical · .or ·)
  | and : Joins .conjunction ⟨.keyword .andWord, p⟩ (.logical · .and ·)
  | binary : Level.ofBinary op = l → Joins l ⟨.symbol op.symbol, p⟩ (.binary · op p ·)

inductive IsAtom : Token → Expr Unresolved → Prop where
  | trueWord : IsAtom ⟨.keyword .trueWord, p⟩ (.literal (.bool true))
  | falseWord : IsAtom ⟨.keyword .falseWord, p⟩ (.literal (.bool false))
  | nilWord : IsAtom ⟨.keyword .nilWord, p⟩ (.literal .nil)
  | thisWord : IsAtom ⟨.keyword .thisWord, p⟩ (.receiver p ())
  | number : IsAtom ⟨.number text, p⟩ (.literal (.number (Decimal.ofNumeral text)))
  | string : IsAtom ⟨.string text, p⟩ (.literal (.string text))
  | identifier : IsAtom ⟨.identifier name, p⟩ (.read ⟨name, p⟩ ())

mutual

/-- The tokens begin with an expression of a level. An operator of a level takes all of that level
before it as its left operand. -/
inductive IsExpr : Level → List Token → Expr Unresolved → List Token → Prop where
  | assign : IsExpr .expression ts value rest →
      IsExpr .expression (⟨.identifier name, p⟩ :: ⟨.symbol .equal, q⟩ :: ts)
        (.assign ⟨name, p⟩ () value) rest
  | set : IsExpr .call ts object
        (⟨.symbol .dot, o⟩ :: ⟨.identifier name, p⟩ :: ⟨.symbol .equal, q⟩ :: us) →
      IsExpr .expression us value rest →
      IsExpr .expression ts (.set object ⟨name, p⟩ value) rest
  | tighter : IsExpr l.tighter ts e rest → IsExpr l ts e rest
  | join : IsExpr l ts left (t :: us) → Joins l t f → IsExpr l.tighter us right rest →
      IsExpr l ts (f left right) rest
  | negate : IsExpr .unary ts e rest →
      IsExpr .unary (⟨.symbol .minus, p⟩ :: ts) (.unary .negate p e) rest
  | not : IsExpr .unary ts e rest →
      IsExpr .unary (⟨.symbol .bang, p⟩ :: ts) (.unary .not p e) rest
  | call : IsExpr .call ts callee (⟨.symbol .leftParen, p⟩ :: us) →
      IsArgs us args (⟨.symbol .rightParen, q⟩ :: rest) →
      IsExpr .call ts (.call callee args q) rest
  | get : IsExpr .call ts object (⟨.symbol .dot, o⟩ :: ⟨.identifier name, p⟩ :: rest) →
      IsExpr .call ts (.get object ⟨name, p⟩) rest
  | atom : IsAtom t e → IsExpr .primary (t :: rest) e rest
  | grouping : IsExpr .expression ts e (⟨.symbol .rightParen, q⟩ :: rest) →
      IsExpr .primary (⟨.symbol .leftParen, p⟩ :: ts) (.grouping e) rest

/-- The tokens begin with at most eight expressions between commas. -/
inductive IsArgs : List Token → List (Expr Unresolved) → List Token → Prop where
  | none : IsArgs ts [] ts
  | one : IsExpr .expression ts e rest → IsArgs ts [e] rest
  | more : IsArgs ts args (⟨.symbol .comma, p⟩ :: us) → args ≠ [] → args.length < 8 →
      IsExpr .expression us e rest → IsArgs ts (args ++ [e]) rest

end

inductive IsOptional : List Token → Option (Expr Unresolved) → List Token → Prop where
  | none : IsOptional ts none ts
  | some : IsExpr .expression ts e rest → IsOptional ts (some e) rest

inductive IsParams : List Token → List Ident → List Token → Prop where
  | none : IsParams ts [] ts
  | one : IsParams (⟨.identifier name, p⟩ :: rest) [⟨name, p⟩] rest
  | more : IsParams ts params (⟨.symbol .comma, q⟩ :: ⟨.identifier name, p⟩ :: rest) →
      params ≠ [] → params.length < 8 → IsParams ts (params ++ [⟨name, p⟩]) rest

inductive IsVarDecl : List Token → Stmt Unresolved → List Token → Prop where
  | plain : IsVarDecl
      (⟨.keyword .varWord, w⟩ :: ⟨.identifier name, p⟩ :: ⟨.symbol .semicolon, q⟩ :: rest)
      (.varDecl ⟨name, p⟩ none) rest
  | init : IsExpr .expression ts e (⟨.symbol .semicolon, q⟩ :: rest) →
      IsVarDecl (⟨.keyword .varWord, w⟩ :: ⟨.identifier name, p⟩ :: ⟨.symbol .equal, o⟩ :: ts)
        (.varDecl ⟨name, p⟩ (some e)) rest

inductive IsExprStmt : List Token → Stmt Unresolved → List Token → Prop where
  | intro : IsExpr .expression ts e (⟨.symbol .semicolon, q⟩ :: rest) →
      IsExprStmt ts (.expression e) rest

inductive IsForStart : List Token → Option (Stmt Unresolved) → List Token → Prop where
  | none : IsForStart (⟨.symbol .semicolon, q⟩ :: rest) none rest
  | varDecl : IsVarDecl ts s rest → IsForStart ts (some s) rest
  | expression : IsExprStmt ts s rest → IsForStart ts (some s) rest

/-- The while loop that a for loop stands for. -/
def whileForm (start : Option (Stmt Unresolved)) (condition increment : Option (Expr Unresolved))
    (body : Stmt Unresolved) : Stmt Unresolved :=
  let loop := .loop (condition.getD (.literal (.bool true)))
    (increment.elim body fun e => .block [body, .expression e])
  start.elim loop fun s => .block [s, loop]

mutual

/-- The tokens begin with a statement. `dangling` says that it ends with a conditional that could
still take an `else`. If `nearest` is set, an `else` belongs to the nearest conditional that could
take it. -/
inductive IsStmt (nearest : Bool) :
    (dangling : Bool) → List Token → Stmt Unresolved → List Token → Prop where
  | expression : IsExprStmt ts s rest → IsStmt nearest false ts s rest
  | funDecl : IsFunction nearest ts decl rest →
      IsStmt nearest false (⟨.keyword .funWord, p⟩ :: ts) (.funDecl decl) rest
  | forLoop : IsForStart ts start us → IsOptional us condition (⟨.symbol .semicolon, r⟩ :: vs) →
      IsOptional vs increment (⟨.symbol .rightParen, q⟩ :: xs) →
      IsStmt nearest dangling xs body rest →
      IsStmt nearest dangling (⟨.keyword .forWord, o⟩ :: ⟨.symbol .leftParen, p⟩ :: ts)
        (whileForm start condition increment body) rest
  | ifThen : IsExpr .expression ts c (⟨.symbol .rightParen, q⟩ :: us) →
      IsStmt nearest dangling us yes rest →
      IsStmt nearest true (⟨.keyword .ifWord, o⟩ :: ⟨.symbol .leftParen, p⟩ :: ts)
        (.branch c yes none) rest
  | ifElse : IsExpr .expression ts c (⟨.symbol .rightParen, q⟩ :: us) →
      IsStmt nearest d us yes (⟨.keyword .elseWord, r⟩ :: vs) → (nearest = true → d = false) →
      IsStmt nearest dangling vs no rest →
      IsStmt nearest dangling (⟨.keyword .ifWord, o⟩ :: ⟨.symbol .leftParen, p⟩ :: ts)
        (.branch c yes (some no)) rest
  | print : IsExpr .expression ts e (⟨.symbol .semicolon, q⟩ :: rest) →
      IsStmt nearest false (⟨.keyword .printWord, p⟩ :: ts) (.print e) rest
  | ret : IsOptional ts value (⟨.symbol .semicolon, q⟩ :: rest) →
      IsStmt nearest false (⟨.keyword .returnWord, p⟩ :: ts) (.ret p value) rest
  | loop : IsExpr .expression ts c (⟨.symbol .rightParen, q⟩ :: us) →
      IsStmt nearest dangling us body rest →
      IsStmt nearest dangling (⟨.keyword .whileWord, o⟩ :: ⟨.symbol .leftParen, p⟩ :: ts)
        (.loop c body) rest
  | block : IsDecls nearest ts body (⟨.symbol .rightBrace, q⟩ :: rest) →
      IsStmt nearest false (⟨.symbol .leftBrace, p⟩ :: ts) (.block body) rest

inductive IsFunction (nearest : Bool) : List Token → FunDecl Unresolved → List Token → Prop where
  | intro : IsParams ts params (⟨.symbol .rightParen, q⟩ :: ⟨.symbol .leftBrace, r⟩ :: us) →
      IsDecls nearest us body (⟨.symbol .rightBrace, s⟩ :: rest) →
      IsFunction nearest (⟨.identifier name, p⟩ :: ⟨.symbol .leftParen, o⟩ :: ts)
        ⟨⟨name, p⟩, params, body⟩ rest

inductive IsMethods (nearest : Bool) :
    List Token → List (FunDecl Unresolved) → List Token → Prop where
  | nil : IsMethods nearest ts [] ts
  | cons : IsFunction nearest ts f us → IsMethods nearest us fs rest →
      IsMethods nearest ts (f :: fs) rest

inductive IsDecl (nearest : Bool) : List Token → Stmt Unresolved → List Token → Prop where
  | classDecl : IsMethods nearest ts methods (⟨.symbol .rightBrace, q⟩ :: rest) →
      IsDecl nearest
        (⟨.keyword .classWord, w⟩ :: ⟨.identifier name, p⟩ :: ⟨.symbol .leftBrace, o⟩ :: ts)
        (.classDecl ⟨name, p⟩ methods) rest
  | varDecl : IsVarDecl ts s rest → IsDecl nearest ts s rest
  | statement : IsStmt nearest dangling ts s rest → IsDecl nearest ts s rest

inductive IsDecls (nearest : Bool) : List Token → List (Stmt Unresolved) → List Token → Prop where
  | empty : IsDecls nearest ts [] ts
  | next : IsDecl nearest ts s us → IsDecls nearest us body rest →
      IsDecls nearest ts (s :: body) rest

end

def IsProgram (nearest : Bool) (ts : List Token) (program : Program Unresolved) : Prop :=
  IsDecls nearest ts program []

theorem IsExpr.length_lt (h : IsExpr l ts e rest) : rest.length < ts.length := by
  induction h using IsExpr.rec (motive_2 := fun ts _ rest _ => rest.length ≤ ts.length) with
  | assign _ ih => simp only [List.length_cons]; omega
  | set _ _ ih ih' => simp only [List.length_cons] at ih; omega
  | tighter _ ih => exact ih
  | join _ _ _ ih ih' => simp only [List.length_cons] at ih; omega
  | negate _ ih => simp only [List.length_cons]; omega
  | not _ ih => simp only [List.length_cons]; omega
  | call _ _ ih ih' => simp only [List.length_cons] at ih ih'; omega
  | get _ ih => simp only [List.length_cons] at ih; omega
  | atom => exact Nat.lt_succ_self _
  | grouping _ ih => simp only [List.length_cons] at ih ⊢; omega
  | none => exact Nat.le_refl _
  | one _ ih => exact Nat.le_of_lt ih
  | more _ _ _ _ ih ih' => simp only [List.length_cons] at ih; omega

theorem IsArgs.length_le (h : IsArgs ts args rest) : rest.length ≤ ts.length := by
  induction h using IsArgs.rec (motive_1 := fun _ _ _ _ _ => True) with
  | none => exact Nat.le_refl _
  | one h => exact Nat.le_of_lt h.length_lt
  | more _ _ _ h ih => have := h.length_lt; simp only [List.length_cons] at ih; omega
  | _ => trivial

theorem IsOptional.length_le (h : IsOptional ts e rest) : rest.length ≤ ts.length := by
  cases h with
  | none => exact Nat.le_refl _
  | some h => exact Nat.le_of_lt h.length_lt

theorem IsParams.length_le (h : IsParams ts params rest) : rest.length ≤ ts.length := by
  induction h with
  | none => exact Nat.le_refl _
  | one => exact Nat.le_succ _
  | more _ _ _ ih => simp only [List.length_cons] at ih; omega

theorem IsVarDecl.length_lt (h : IsVarDecl ts s rest) : rest.length < ts.length := by
  cases h with
  | plain => simp only [List.length_cons]; omega
  | init h => have := h.length_lt; simp only [List.length_cons] at *; omega

theorem IsExprStmt.length_lt (h : IsExprStmt ts s rest) : rest.length < ts.length := by
  cases h with
  | intro h => have := h.length_lt; simp only [List.length_cons] at this; omega

theorem IsForStart.length_lt (h : IsForStart ts s rest) : rest.length < ts.length := by
  cases h with
  | none => exact Nat.lt_succ_self _
  | varDecl h => exact h.length_lt
  | expression h => exact h.length_lt

theorem IsDecls.length_le (h : IsDecls nearest ts body rest) :
    rest.length + body.length ≤ ts.length := by
  induction h using IsDecls.rec (motive_1 := fun _ ts _ rest _ => rest.length < ts.length)
    (motive_2 := fun ts _ rest _ => rest.length < ts.length)
    (motive_3 := fun ts _ rest _ => rest.length ≤ ts.length)
    (motive_4 := fun ts _ rest _ => rest.length < ts.length) with
  | expression h => exact h.length_lt
  | funDecl _ ih => exact Nat.lt_succ_of_lt ih
  | forLoop h h' h'' _ ih =>
    have := h.length_lt
    have := h'.length_le
    have := h''.length_le
    simp only [List.length_cons] at *
    omega
  | ifThen h _ ih =>
    have := h.length_lt
    simp only [List.length_cons] at *
    omega
  | ifElse h _ _ _ ih ih' =>
    have := h.length_lt
    simp only [List.length_cons] at *
    omega
  | print h =>
    have := h.length_lt
    simp only [List.length_cons] at *
    omega
  | ret h =>
    have := h.length_le
    simp only [List.length_cons] at *
    omega
  | loop h _ ih =>
    have := h.length_lt
    simp only [List.length_cons] at *
    omega
  | block _ ih =>
    simp only [List.length_cons] at *
    omega
  | intro h _ ih =>
    have := h.length_le
    simp only [List.length_cons] at *
    omega
  | nil => exact Nat.le_refl _
  | cons _ _ ih ih' => omega
  | classDecl _ ih => simp only [List.length_cons] at *; omega
  | varDecl h => exact h.length_lt
  | statement _ ih => exact ih
  | empty => exact Nat.le_refl _
  | next _ _ ih ih' => simp only [List.length_cons]; omega

theorem IsDecl.length_lt (h : IsDecl nearest ts s rest) : rest.length < ts.length :=
  (IsDecls.next h .empty).length_le

theorem IsStmt.length_lt (h : IsStmt nearest dangling ts s rest) : rest.length < ts.length :=
  (IsDecl.statement h).length_lt

theorem IsFunction.length_lt (h : IsFunction nearest ts f rest) : rest.length < ts.length := by
  cases h with
  | intro h h' =>
    have := h.length_le
    have := h'.length_le
    simp only [List.length_cons] at *
    omega

end Lox.Grammar
