import Lox.Scope.Context

namespace Lox

inductive MisuseKind where
  /-- A name is declared twice in a local scope. -/
  | alreadyDeclared
  /-- A local variable is read in its own initializer. -/
  | ownInitializer
  /-- A return stands outside every function. -/
  | returnOutside
  /-- A return in an initializer has a value. -/
  | returnValue
  /-- The receiver is used outside every class. -/
  | receiverOutside
deriving DecidableEq, Repr

def MisuseKind.message : MisuseKind → String
  | alreadyDeclared => "Variable with this name already declared in this scope."
  | ownInitializer => "Cannot read local variable in its own initializer."
  | returnOutside => "Cannot return from top-level code."
  | returnValue => "Cannot return a value from an initializer."
  | receiverOutside => "Cannot use 'this' outside of a class."

structure Misuse where
  kind : MisuseKind
  word : String
  line : Nat
deriving DecidableEq, Repr

def Context.redeclared (Γ : Context) (name : Ident) : List Misuse :=
  if (Γ.status? name.name).isSome then [⟨.alreadyDeclared, name.name, name.pos.line⟩] else []

def Context.redeclaredParams (Γ : Context) : List Ident → List Misuse
  | [] => []
  | p :: rest => Γ.redeclared p ++ (Γ.mark p.name .ready).redeclaredParams rest

variable {ρ : Type}

mutual

def Expr.misuses (Γ : Context) : Expr ρ → List Misuse
  | .literal _ => []
  | .grouping inner => inner.misuses Γ
  | .unary _ _ operand => operand.misuses Γ
  | .binary left _ _ right => left.misuses Γ ++ right.misuses Γ
  | .logical left _ right => left.misuses Γ ++ right.misuses Γ
  | .read name _ =>
    if Γ.status? name.name = some .pending then [⟨.ownInitializer, name.name, name.pos.line⟩] else []
  | .assign _ _ value => value.misuses Γ
  | .call callee args _ => callee.misuses Γ ++ Expr.misusesAll Γ args
  | .get object _ => object.misuses Γ
  | .set object _ value => value.misuses Γ ++ object.misuses Γ
  | .receiver pos _ => if Γ.inClass then [] else [⟨.receiverOutside, receiverName, pos.line⟩]

def Expr.misusesAll (Γ : Context) : List (Expr ρ) → List Misuse
  | [] => []
  | e :: rest => e.misuses Γ ++ Expr.misusesAll Γ rest

end

def Context.returnMisuses (Γ : Context) (pos : Pos) (hasValue : Bool) : List Misuse :=
  match Γ.function with
  | .none => [⟨.returnOutside, Keyword.returnWord.text, pos.line⟩]
  | .initializer => if hasValue then [⟨.returnValue, Keyword.returnWord.text, pos.line⟩] else []
  | _ => []

mutual

def Stmt.misuses (Γ : Context) : Stmt ρ → List Misuse
  | .expression e => e.misuses Γ
  | .print e => e.misuses Γ
  | .varDecl name none => Γ.redeclared name
  | .varDecl name (some init) => Γ.redeclared name ++ init.misuses (Γ.mark name.name .pending)
  | .block body => Stmt.misusesAll Γ.enter body
  | .branch condition yes none => condition.misuses Γ ++ yes.misuses Γ
  | .branch condition yes (some no) =>
    condition.misuses Γ ++ yes.misuses Γ ++ no.misuses (Γ.after yes)
  | .loop condition body => condition.misuses Γ ++ body.misuses Γ
  | .funDecl decl =>
    Γ.redeclared decl.name ++ decl.misuses (Γ.mark decl.name.name .ready) .function
  | .ret pos none => Γ.returnMisuses pos false
  | .ret pos (some value) => Γ.returnMisuses pos true ++ value.misuses Γ
  | .classDecl name methods =>
    Γ.redeclared name ++ FunDecl.misusesAll (Γ.mark name.name .ready).enterClass methods

def Stmt.misusesAll (Γ : Context) : List (Stmt ρ) → List Misuse
  | [] => []
  | s :: rest => s.misuses Γ ++ Stmt.misusesAll (Γ.after s) rest

def FunDecl.misuses (Γ : Context) (kind : Enclosing) : FunDecl ρ → List Misuse
  | ⟨_, params, body⟩ =>
    (Γ.enterFunction kind).redeclaredParams params ++
      Stmt.misusesAll (Γ.body kind params) body

def FunDecl.misusesAll (Γ : Context) : List (FunDecl ρ) → List Misuse
  | [] => []
  | f :: rest => f.misuses Γ (Context.methodKind f.name.name) ++ FunDecl.misusesAll Γ rest

end

def Program.misuses (program : Program ρ) : List Misuse := Stmt.misusesAll {} program

end Lox
