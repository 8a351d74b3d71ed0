import Lox.Arena
import Lox.Value.Operator

namespace Lox

/-- All that a program can change: environments and the fields of instances. -/
structure Store where
  arena : Arena := {}
  fields : Std.TreeMap Identity (Bindings Value) := {}
  /-- The identity of the next new object. -/
  nextId : Identity := 0

def globals : Handle := 0

inductive Fault where
  /-- An error of the program, with its line. -/
  | error (fault : RuntimeFault) (line : Nat)
  /-- A local variable, or an environment, that should be there is not. -/
  | escape (fault : ArenaFault)
deriving DecidableEq, Repr

/-- A name that is bound nowhere is an error of the program. -/
def Fault.ofArena (fault : ArenaFault) (line : Nat) : Fault :=
  match fault with
  | .undefined name => .error (.undefinedVariable name) line
  | _ => .escape fault

inductive Completion where
  | normal
  /-- A return on its way to the call around it. -/
  | returning (value : Value)
  /-- A fault on its way out. -/
  | failing (fault : Fault)

mutual

inductive ValueCont where
  | unary (op : UnaryOp) (pos : Pos) (k : ValueCont)
  /-- The value is the left operand, and the right one comes next. -/
  | left (op : BinaryOp) (pos : Pos) (right : Expr Binding) (k : ValueCont)
  | right (left : Value) (op : BinaryOp) (pos : Pos) (k : ValueCont)
  | logical (op : LogicalOp) (right : Expr Binding) (k : ValueCont)
  | assign (name : Ident) (ref : Binding) (k : ValueCont)
  | callee (args : List (Expr Binding)) (paren : Pos) (k : ValueCont)
  /-- The value is an argument. Those before it are in reverse order. -/
  | argument (callee : Value) (done : List Value) (rest : List (Expr Binding)) (paren : Pos)
      (k : ValueCont)
  | get (name : Ident) (k : ValueCont)
  | setObject (name : Ident) (value : Expr Binding) (k : ValueCont)
  | setValue (target : Instance) (name : Ident) (k : ValueCont)
  | discard (k : DoneCont)
  | print (k : DoneCont)
  | define (name : Ident) (k : DoneCont)
  | branch (yes : Stmt Binding) (no : Option (Stmt Binding)) (k : DoneCont)
  | test (condition : Expr Binding) (body : Stmt Binding) (k : DoneCont)
  | ret (k : DoneCont)

inductive DoneCont where
  /-- The statements of the program that are left. -/
  | program (rest : List (Stmt Binding))
  | sequence (rest : List (Stmt Binding)) (k : DoneCont)
  | again (condition : Expr Binding) (body : Stmt Binding) (k : DoneCont)
  /-- The block is left for the environment around it. -/
  | leaveBlock (outer : Handle) (k : DoneCont)
  /-- The call is left for the environment of its caller. The environment of the receiver, if any, is
  left too, and an initializer gives its instance whatever its body returns. -/
  | leaveCall (outer : Handle) (receiver : Option Handle) (result : Option Instance) (k : ValueCont)

end

/-- The continuation of the statement in which an expression stands. -/
def ValueCont.enclosing : ValueCont → DoneCont
  | unary _ _ k | left _ _ _ k | right _ _ _ k | logical _ _ k | assign _ _ k | callee _ _ k
  | argument _ _ _ _ k | get _ k | setObject _ _ k | setValue _ _ k => k.enclosing
  | discard k | print k | define _ k | branch _ _ k | test _ _ k | ret k => k

inductive Control where
  | eval (e : Expr Binding) (k : ValueCont)
  | exec (s : Stmt Binding) (k : DoneCont)
  | value (v : Value) (k : ValueCont)
  | complete (c : Completion) (k : DoneCont)

structure Machine where
  control : Control
  store : Store
  /-- The current environment. -/
  env : Handle
  /-- The number of calls in progress. -/
  depth : Nat := 0
  /-- The lines printed so far, the last one first. -/
  printed : List String := []

/-- The largest number of calls in progress. -/
def callLimit : Nat := 10000

end Lox
