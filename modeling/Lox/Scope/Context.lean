import Lox.Bindings
import Lox.Tree

namespace Lox

/-- Whether the initializer of a declared name has been passed. -/
inductive Status where
  | pending
  | ready
deriving DecidableEq, Repr

/-- The names declared in a block, function or class. -/
abbrev Scope := Bindings Status

/-- The kind of the innermost function around a place. -/
inductive Enclosing where
  | none
  | function
  | method
  | initializer
deriving DecidableEq, Repr

/-- What surrounds a place. -/
structure Context where
  /-- The scopes around it, the innermost first. -/
  scopes : List Scope := []
  function : Enclosing := .none
  inClass : Bool := false

/-- Where a reference finds its name: among the globals, or a number of scopes outward. -/
inductive Binding where
  | free
  | bound (distance : Nat)
deriving DecidableEq, Repr

/-- The name under which a method finds its instance. -/
def receiverName : String := Keyword.thisWord.text

/-- The name of the method that sets up a new instance. -/
def initializerName : String := "init"

namespace Context

/-- Sets the status of a name in the innermost scope. Globals are not tracked. -/
def mark (Γ : Context) (name : String) (status : Status) : Context :=
  match Γ.scopes with
  | [] => Γ
  | scope :: outer => { Γ with scopes := scope.set name status :: outer }

def status? (Γ : Context) (name : String) : Option Status :=
  Γ.scopes.head?.bind (·.get? name)

def binding (Γ : Context) (name : String) : Binding :=
  match Γ.scopes.findIdx? (·.contains name) with
  | some distance => .bound distance
  | none => .free

def enter (Γ : Context) (scope : Scope := {}) : Context :=
  { Γ with scopes := scope :: Γ.scopes }

def enterFunction (Γ : Context) (kind : Enclosing) : Context :=
  { Γ.enter with function := kind }

def enterClass (Γ : Context) : Context :=
  { Γ.enter (Bindings.empty.set receiverName .ready) with inClass := true }

def params (Γ : Context) (params : List Ident) : Context :=
  params.foldl (fun Γ p => Γ.mark p.name .ready) Γ

def body (Γ : Context) (kind : Enclosing) (params : List Ident) : Context :=
  (Γ.enterFunction kind).params params

def methodKind (name : String) : Enclosing :=
  if name = initializerName then .initializer else .method

/-- Behind a statement. A declaration that is a branch or the body of a loop belongs to the scope
around that statement. -/
def after {ρ : Type} (Γ : Context) : Stmt ρ → Context
  | .varDecl name _ => Γ.mark name.name .ready
  | .funDecl decl => Γ.mark decl.name.name .ready
  | .classDecl name _ => Γ.mark name.name .ready
  | .branch _ yes none => Γ.after yes
  | .branch _ yes (some no) => (Γ.after yes).after no
  | .loop _ body => Γ.after body
  | _ => Γ

end Context

end Lox
