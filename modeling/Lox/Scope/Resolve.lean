import Lox.Scope.Context

namespace Lox

variable {ρ : Type}

mutual

def Expr.resolve (Γ : Context) : Expr ρ → Expr Binding
  | .literal value => .literal value
  | .grouping inner => .grouping (inner.resolve Γ)
  | .unary op pos operand => .unary op pos (operand.resolve Γ)
  | .binary left op pos right => .binary (left.resolve Γ) op pos (right.resolve Γ)
  | .logical left op right => .logical (left.resolve Γ) op (right.resolve Γ)
  | .read name _ => .read name (Γ.binding name.name)
  | .assign name _ value => .assign name (Γ.binding name.name) (value.resolve Γ)
  | .call callee args paren => .call (callee.resolve Γ) (Expr.resolveAll Γ args) paren
  | .get object name => .get (object.resolve Γ) name
  | .set object name value => .set (object.resolve Γ) name (value.resolve Γ)
  | .receiver pos _ => .receiver pos (if Γ.inClass then Γ.binding receiverName else .free)

def Expr.resolveAll (Γ : Context) : List (Expr ρ) → List (Expr Binding)
  | [] => []
  | e :: rest => e.resolve Γ :: Expr.resolveAll Γ rest

end

mutual

def Stmt.resolve (Γ : Context) : Stmt ρ → Stmt Binding
  | .expression e => .expression (e.resolve Γ)
  | .print e => .print (e.resolve Γ)
  | .varDecl name init => .varDecl name (init.map (·.resolve (Γ.mark name.name .pending)))
  | .block body => .block (Stmt.resolveAll Γ.enter body)
  | .branch condition yes none => .branch (condition.resolve Γ) (yes.resolve Γ) none
  | .branch condition yes (some no) =>
    .branch (condition.resolve Γ) (yes.resolve Γ) (some (no.resolve (Γ.after yes)))
  | .loop condition body => .loop (condition.resolve Γ) (body.resolve Γ)
  | .funDecl decl => .funDecl (decl.resolve (Γ.mark decl.name.name .ready) .function)
  | .ret pos value => .ret pos (value.map (·.resolve Γ))
  | .classDecl name methods =>
    .classDecl name (FunDecl.resolveAll (Γ.mark name.name .ready).enterClass methods)

/-- Statements that follow each other: each may refer to what those before it declare. -/
def Stmt.resolveAll (Γ : Context) : List (Stmt ρ) → List (Stmt Binding)
  | [] => []
  | s :: rest => s.resolve Γ :: Stmt.resolveAll (Γ.after s) rest

def FunDecl.resolve (Γ : Context) (kind : Enclosing) : FunDecl ρ → FunDecl Binding
  | ⟨name, params, body⟩ => ⟨name, params, Stmt.resolveAll (Γ.body kind params) body⟩

def FunDecl.resolveAll (Γ : Context) : List (FunDecl ρ) → List (FunDecl Binding)
  | [] => []
  | f :: rest => f.resolve Γ (Context.methodKind f.name.name) :: FunDecl.resolveAll Γ rest

end

def Program.resolve (program : Program ρ) : Program Binding := Stmt.resolveAll {} program

end Lox
