import Lox.Decimal.Layout
import Lox.Scope.Context
import Lox.Text.Quoted

namespace Lox

abbrev Handle := Nat

abbrev Identity := Nat

/-- A function or method with the environment it was declared in. -/
structure Closure where
  decl : FunDecl Binding
  env : Handle

structure ClassObject where
  id : Identity
  name : String
  methods : Bindings Closure

/-- An instance. Its fields can change and are kept in the store. -/
structure Instance where
  id : Identity
  cls : ClassObject

inductive Value where
  | nil
  | bool (b : Bool)
  | number (x : Float)
  | string (s : String)
  | function (id : Identity) (closure : Closure)
  /-- A method together with the instance it was read from. -/
  | method (id : Identity) (closure : Closure) (receiver : Instance)
  | cls (c : ClassObject)
  | object (i : Instance)

/-- The kinds that operators tell apart. -/
inductive Kind where
  | nil | boolean | number | string | callable | object
deriving DecidableEq, Repr

def Kind.text : Kind → String
  | nil => "nil"
  | boolean => "boolean"
  | number => "number"
  | string => "string"
  | callable => "callable"
  | object => "instance"

namespace Closure

def arity (c : Closure) : Nat := c.decl.params.length

end Closure

namespace ClassObject

def initializer? (c : ClassObject) : Option Closure := c.methods.get? initializerName

/-- A class is called with the arguments of its initializer. -/
def arity (c : ClassObject) : Nat :=
  match c.initializer? with
  | some init => init.arity
  | none => 0

end ClassObject

namespace Value

def ofLiteral : Literal → Value
  | .nil => nil
  | .bool b => bool b
  | .number x => number x
  | .string s => string s

def kind : Value → Kind
  | nil => .nil
  | bool _ => .boolean
  | number _ => .number
  | string _ => .string
  | function .. | method .. | cls _ => .callable
  | object _ => .object

/-- All values but `nil` and `false` count as true. -/
def isTruthy : Value → Bool
  | nil => false
  | bool b => b
  | _ => true

/-- Values of different kinds differ. Objects are equal only to themselves, and a number that is not
a number is not equal to itself. -/
def equals : Value → Value → Bool
  | nil, nil => true
  | bool a, bool b => a == b
  | number x, number y => x == y
  | string s, string t => s == t
  | function a _, function b _ => a == b
  | method a _ _, method b _ _ => a == b
  | cls a, cls b => a.id == b.id
  | object a, object b => a.id == b.id
  | _, _ => false

def text : Value → String
  | nil => "nil"
  | bool b => if b then "true" else "false"
  | number x => Decimal.printed x
  | string s => s
  | function .. | method .. => "<fun>"
  | cls c => c.name
  | object i => i.cls.name ++ " instance"

def describe : Value → String
  | nil => "None"
  | bool b => if b then "True" else "False"
  | number x => Decimal.text x
  | string s => Text.quoted s
  | function _ c | method _ c _ => "LoxFunction(" ++ c.decl.name.name ++ ")"
  | cls c => "LoxClass(" ++ c.name ++ ")"
  | object i => "LoxInstance(" ++ i.cls.name ++ ")"

end Value

end Lox
