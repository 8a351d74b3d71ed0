import Lox.Value
import Std.Data.TreeMap

namespace Lox

/-- The bindings of one scope at run time. -/
structure Environment where
  values : Bindings Value := {}
  /-- The environment around it, none for the globals. -/
  enclosing : Option Handle
  /-- Whether a closure refers to it or to one inside it. -/
  captured : Bool := false

inductive ArenaFault where
  /-- There is no such environment; `none` is what lies outside an outermost one. -/
  | missing (handle : Option Handle)
  /-- The environment found does not bind the name. -/
  | unbound (name : String)
  /-- No environment up to the outermost one binds the name. -/
  | undefined (name : String)
  /-- The enclosing links run in a circle. -/
  | endless
deriving DecidableEq, Repr

structure Arena where
  records : Std.TreeMap Handle Environment := {}
  /-- The handle of the next new environment. -/
  next : Handle := 0

namespace Arena

def get? (a : Arena) (h : Handle) : Option Environment := a.records[h]?

def contains (a : Arena) (h : Handle) : Bool := (a.get? h).isSome

def size (a : Arena) : Nat := a.records.size

def toList (a : Arena) : List (Handle × Environment) := a.records.toList

def put (a : Arena) (h : Handle) (e : Environment) : Arena :=
  { a with records := a.records.insert h e }

@[simp] theorem get?_put (a : Arena) (h other : Handle) (e : Environment) :
    (a.put h e).get? other = if h = other then some e else a.get? other := by
  simp [get?, put, Std.TreeMap.getElem?_insert]

def new (a : Arena) (enclosing : Option Handle) (values : Bindings Value := {}) : Handle × Arena :=
  (a.next, { records := a.records.insert a.next { enclosing, values }, next := a.next + 1 })

theorem get?_new (a : Arena) (enclosing : Option Handle) (values : Bindings Value) (h : Handle) :
    (a.new enclosing values).2.get? h =
      if a.next = h then some { enclosing, values } else a.get? h := by
  simp [get?, new, Std.TreeMap.getElem?_insert]

def find (a : Arena) (h : Handle) : Except ArenaFault Environment :=
  match a.get? h with
  | some e => .ok e
  | none => .error (.missing (some h))

def define (a : Arena) (h : Handle) (name : String) (value : Value) : Except ArenaFault Arena := do
  let e ← a.find h
  return a.put h { e with values := e.values.set name value }

/-- Marks environments outward from `h`, at most `n` of them, and stops at one marked before. Gives
the handle of a missing environment where it had to stop. -/
def captureUpTo (a : Arena) : Nat → Handle → Arena × Option Handle
  | 0, _ => (a, none)
  | n + 1, h =>
    match a.get? h with
    | none => (a, some h)
    | some e =>
      if e.captured then (a, none)
      else
        let marked := a.put h { e with captured := true }
        match e.enclosing with
        | none => (marked, none)
        | some outer => marked.captureUpTo n outer

/-- Marks an environment and all around it as captured. Every step marks another environment, so
there are no more steps than environments. If the chain is broken, the marks made stay. -/
def capture (a : Arena) (h : Handle) : Arena × Option Handle := a.captureUpTo (a.size + 1) h

/-- Drops an environment unless it is captured. -/
def release (a : Arena) (h : Handle) : Except ArenaFault Arena := do
  let e ← a.find h
  return if e.captured then a else { a with records := a.records.erase h }

def ancestor (a : Arena) (h : Handle) : Nat → Except ArenaFault (Handle × Environment)
  | 0 => do return (h, ← a.find h)
  | distance + 1 => do
    match (← a.find h).enclosing with
    | some outer => a.ancestor outer distance
    | none => .error (.missing none)

/-- The nearest environment, of at most `n`, that binds a name. -/
def nearestUpTo (a : Arena) (name : String) :
    Nat → Handle → Except ArenaFault (Handle × Environment × Value)
  | 0, _ => .error .endless
  | n + 1, h => do
    let e ← a.find h
    match e.values.get? name with
    | some v => return (h, e, v)
    | none =>
      match e.enclosing with
      | some outer => a.nearestUpTo name n outer
      | none => .error (.undefined name)

/-- The nearest environment that binds a name. A chain without a circle has no more environments than
the arena. -/
def nearest (a : Arena) (h : Handle) (name : String) :
    Except ArenaFault (Handle × Environment × Value) :=
  a.nearestUpTo name (a.size + 1) h

def get (a : Arena) (h : Handle) (name : String) : Except ArenaFault Value := do
  return (← a.nearest h name).2.2

def assign (a : Arena) (h : Handle) (name : String) (value : Value) : Except ArenaFault Arena := do
  let (home, e, _) ← a.nearest h name
  return a.put home { e with values := e.values.set name value }

def getAt (a : Arena) (h : Handle) (distance : Nat) (name : String) : Except ArenaFault Value := do
  match (← a.ancestor h distance).2.values.get? name with
  | some v => return v
  | none => .error (.unbound name)

def assignAt (a : Arena) (h : Handle) (distance : Nat) (name : String) (value : Value) :
    Except ArenaFault Arena := do
  let (home, e) ← a.ancestor h distance
  return a.put home { e with values := e.values.set name value }

end Arena

def Environment.describe (e : Environment) : String :=
  let values := e.values.entries.map fun (name, v) => Text.quoted name ++ ": " ++ v.describe
  "Environment(values=\x7b" ++ ", ".intercalate values ++ "\x7d, enclosing=" ++
    (match e.enclosing with
      | some h => toString h
      | none => "None") ++
    ", captured=" ++ (if e.captured then "True" else "False") ++ ")"

end Lox
