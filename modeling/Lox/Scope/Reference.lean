import Lox.Scope.Context

namespace Lox

inductive ReferenceKind where
  | read
  | assign
  | receiver
deriving DecidableEq, Repr

/-- A reference with the distance of its scope. -/
structure Reference where
  kind : ReferenceKind
  name : String
  pos : Pos
  distance : Nat
deriving DecidableEq, Repr

def Binding.entry (ref : Binding) (kind : ReferenceKind) (name : String) (pos : Pos) :
    List Reference :=
  match ref with
  | .free => []
  | .bound distance => [{ kind, name, pos, distance }]

mutual

def Expr.references : Expr Binding → List Reference
  | .literal _ => []
  | .grouping inner => inner.references
  | .unary _ _ operand => operand.references
  | .binary left _ _ right => left.references ++ right.references
  | .logical left _ right => left.references ++ right.references
  | .read name ref => ref.entry .read name.name name.pos
  | .assign name ref value => value.references ++ ref.entry .assign name.name name.pos
  | .call callee args _ => callee.references ++ Expr.referencesAll args
  | .get object _ => object.references
  | .set object _ value => value.references ++ object.references
  | .receiver pos ref => ref.entry .receiver receiverName pos

def Expr.referencesAll : List (Expr Binding) → List Reference
  | [] => []
  | e :: rest => e.references ++ Expr.referencesAll rest

end

mutual

def Stmt.references : Stmt Binding → List Reference
  | .expression e => e.references
  | .print e => e.references
  | .varDecl _ none => []
  | .varDecl _ (some init) => init.references
  | .block body => Stmt.referencesAll body
  | .branch condition yes none => condition.references ++ yes.references
  | .branch condition yes (some no) =>
    condition.references ++ yes.references ++ no.references
  | .loop condition body => condition.references ++ body.references
  | .funDecl decl => decl.references
  | .ret _ none => []
  | .ret _ (some value) => value.references
  | .classDecl _ methods => FunDecl.referencesAll methods

def Stmt.referencesAll : List (Stmt Binding) → List Reference
  | [] => []
  | s :: rest => s.references ++ Stmt.referencesAll rest

def FunDecl.references : FunDecl Binding → List Reference
  | ⟨_, _, body⟩ => Stmt.referencesAll body

def FunDecl.referencesAll : List (FunDecl Binding) → List Reference
  | [] => []
  | f :: rest => f.references ++ FunDecl.referencesAll rest

end

end Lox
