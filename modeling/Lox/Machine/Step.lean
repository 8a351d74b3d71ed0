import Lox.Machine

namespace Lox

namespace Store

def read (s : Store) (env : Handle) (name : String) : Binding → Except ArenaFault Value
  | .bound distance => s.arena.getAt env distance name
  | .free => s.arena.get globals name

def assign (s : Store) (env : Handle) (name : String) (ref : Binding) (value : Value) :
    Except ArenaFault Store := do
  let arena ← match ref with
    | .bound distance => s.arena.assignAt env distance name value
    | .free => s.arena.assign globals name value
  return { s with arena }

def define (s : Store) (env : Handle) (name : String) (value : Value) : Except ArenaFault Store := do
  return { s with arena := ← s.arena.define env name value }

def fresh (s : Store) : Identity × Store := (s.nextId, { s with nextId := s.nextId + 1 })

def fieldsOf (s : Store) (i : Instance) : Bindings Value := (s.fields[i.id]?).getD {}

def setField (s : Store) (i : Instance) (name : String) (value : Value) : Store :=
  { s with fields := s.fields.insert i.id ((s.fieldsOf i).set name value) }

/-- A property of an instance: a field, or else a method of its class, which is bound to the instance
and is a new object each time. -/
def property? (s : Store) (i : Instance) (name : String) : Option (Value × Store) :=
  match (s.fieldsOf i).get? name with
  | some v => some (v, s)
  | none =>
    match i.cls.methods.get? name with
    | some m =>
      let (id, s) := s.fresh
      some (.method id m i, s)
    | none => none

end Store

namespace Machine

def eval (m : Machine) (e : Expr Binding) (k : ValueCont) : Machine :=
  { m with control := .eval e k }

def exec (m : Machine) (s : Stmt Binding) (k : DoneCont) : Machine :=
  { m with control := .exec s k }

def give (m : Machine) (v : Value) (k : ValueCont) : Machine := { m with control := .value v k }

def complete (m : Machine) (c : Completion) (k : DoneCont) : Machine :=
  { m with control := .complete c k }

def fail (m : Machine) (fault : Fault) (k : DoneCont) : Machine := m.complete (.failing fault) k

/-- An expression fails, and with it the statement in which it stands. -/
def raise (m : Machine) (fault : RuntimeFault) (pos : Pos) (k : ValueCont) : Machine :=
  m.fail (.error fault pos.line) k.enclosing

def readRef (m : Machine) (name : Ident) (ref : Binding) (k : ValueCont) : Machine :=
  match m.store.read m.env name.name ref with
  | .ok v => m.give v k
  | .error fault => m.fail (.ofArena fault name.pos.line) k.enclosing

def assignRef (m : Machine) (name : Ident) (ref : Binding) (v : Value) (k : ValueCont) : Machine :=
  match m.store.assign m.env name.name ref v with
  | .ok store => { m with store }.give v k
  | .error fault => m.fail (.ofArena fault name.pos.line) k.enclosing

def define (m : Machine) (name : Ident) (v : Value) (k : DoneCont) : Machine :=
  match m.store.define m.env name.name v with
  | .ok store => { m with store }.complete .normal k
  | .error fault => m.fail (.escape fault) k

/-- Captures the current environment for a closure, and goes on. -/
def capture (m : Machine) (k : DoneCont) (go : Machine → Machine) : Machine :=
  let (arena, broken) := m.store.arena.capture m.env
  let m := { m with store := { m.store with arena } }
  match broken with
  | none => go m
  | some h => m.fail (.escape (.missing (some h))) k

def evalStep (m : Machine) (e : Expr Binding) (k : ValueCont) : Machine :=
  match e with
  | .literal value => m.give (.ofLiteral value) k
  | .grouping inner => m.eval inner k
  | .unary op pos operand => m.eval operand (.unary op pos k)
  | .binary left op pos right => m.eval left (.left op pos right k)
  | .logical left op right => m.eval left (.logical op right k)
  | .read name ref => m.readRef name ref k
  | .assign name ref value => m.eval value (.assign name ref k)
  | .call callee args paren => m.eval callee (.callee args paren k)
  | .get object name => m.eval object (.get name k)
  | .set object name value => m.eval object (.setObject name value k)
  | .receiver pos ref => m.readRef ⟨receiverName, pos⟩ ref k

def execStep (m : Machine) (s : Stmt Binding) (k : DoneCont) : Machine :=
  match s with
  | .expression e => m.eval e (.discard k)
  | .print e => m.eval e (.print k)
  | .varDecl name none => m.define name .nil k
  | .varDecl name (some init) => m.eval init (.define name k)
  | .block body =>
    let (h, arena) := m.store.arena.new (some m.env)
    { m with store := { m.store with arena }, env := h }.complete .normal
      (.sequence body (.leaveBlock m.env k))
  | .branch condition yes no => m.eval condition (.branch yes no k)
  | .loop condition body => m.eval condition (.test condition body k)
  | .funDecl decl => m.capture k fun m =>
    let (id, store) := m.store.fresh
    { m with store }.define decl.name (.function id ⟨decl, m.env⟩) k
  | .ret _ none => m.complete (.returning .nil) k
  | .ret _ (some value) => m.eval value (.ret k)
  | .classDecl name methods => m.capture k fun m =>
    let (id, store) := m.store.fresh
    let methods := .ofList (methods.map fun f => (f.name.name, ⟨f, m.env⟩))
    { m with store }.define name (.cls ⟨id, name.name, methods⟩) k

/-- Enters the body of a function. A method gets an environment for its receiver around that of its
parameters. -/
def enter (m : Machine) (c : Closure) (receiver : Option Instance) (args : List Value) (paren : Pos)
    (k : ValueCont) : Machine :=
  if callLimit ≤ m.depth then m.raise .stackOverflow paren k
  else
    let params := Bindings.ofList ((c.decl.params.map (·.name)).zip args)
    match receiver with
    | none =>
      let (h, arena) := m.store.arena.new (some c.env) params
      { m with store := { m.store with arena }, env := h, depth := m.depth + 1 }.complete .normal
        (.sequence c.decl.body (.leaveCall m.env none none k))
    | some i =>
      let (self, arena) := m.store.arena.new (some c.env) (Bindings.empty.set receiverName (.object i))
      let (h, arena) := arena.new (some self) params
      let result := if c.decl.name.name = initializerName then some i else none
      { m with store := { m.store with arena }, env := h, depth := m.depth + 1 }.complete .normal
        (.sequence c.decl.body (.leaveCall m.env (some self) result k))

def checkArity (m : Machine) (arity : Nat) (args : List Value) (paren : Pos) (k : ValueCont)
    (go : Machine → Machine) : Machine :=
  if args.length = arity then go m else m.raise (.wrongArity arity args.length) paren k

/-- Calls a value. A class makes a new instance, which its initializer, if any, sets up. -/
def callStep (m : Machine) (callee : Value) (args : List Value) (paren : Pos) (k : ValueCont) :
    Machine :=
  match callee with
  | .function _ c => m.checkArity c.arity args paren k (·.enter c none args paren k)
  | .method _ c i => m.checkArity c.arity args paren k (·.enter c (some i) args paren k)
  | .cls c => m.checkArity c.arity args paren k fun m =>
    let (id, store) := m.store.fresh
    let m := { m with store }
    match c.initializer? with
    | some init => m.enter init (some ⟨id, c⟩) args paren k
    | none => m.give (.object ⟨id, c⟩) k
  | _ => m.raise .notCallable paren k

def argumentStep (m : Machine) (callee : Value) (done : List Value) (rest : List (Expr Binding))
    (paren : Pos) (k : ValueCont) : Machine :=
  match rest with
  | e :: rest => m.eval e (.argument callee done rest paren k)
  | [] => m.callStep callee done.reverse paren k

/-- Goes on with the result of an operator, or with its error. -/
def operate (m : Machine) (result : Except RuntimeFault Value) (pos : Pos) (k : ValueCont) : Machine :=
  match result with
  | .ok v => m.give v k
  | .error fault => m.raise fault pos k

def valueStep (m : Machine) (v : Value) : ValueCont → Machine
  | .unary op pos k => m.operate (op.apply v) pos k
  | .left op pos right k => m.eval right (.right v op pos k)
  | .right left op pos k => m.operate (op.apply left v) pos k
  | .logical op right k => if op.stopsAt v then m.give v k else m.eval right k
  | .assign name ref k => m.assignRef name ref v k
  | .callee args paren k => m.argumentStep v [] args paren k
  | .argument callee done rest paren k => m.argumentStep callee (v :: done) rest paren k
  | .get name k =>
    match v with
    | .object i =>
      match m.store.property? i name.name with
      | some (v, store) => { m with store }.give v k
      | none => m.raise (.undefinedProperty name.name) name.pos k
    | _ => m.raise .noProperties name.pos k
  | .setObject name value k =>
    match v with
    | .object i => m.eval value (.setValue i name k)
    | _ => m.raise .noFields name.pos k
  | .setValue target name k => { m with store := m.store.setField target name.name v }.give v k
  | .discard k => m.complete .normal k
  | .print k => { m with printed := v.text :: m.printed }.complete .normal k
  | .define name k => m.define name v k
  | .branch yes no k =>
    if v.isTruthy then m.exec yes k
    else
      match no with
      | some no => m.exec no k
      | none => m.complete .normal k
  | .test condition body k =>
    if v.isTruthy then m.exec body (.again condition body k) else m.complete .normal k
  | .ret k => m.complete (.returning v) k

/-- Goes back to an outer environment and releases those that are left. -/
def leave (m : Machine) (outer : Handle) (left : List Handle) : Machine × Option ArenaFault :=
  match left.foldlM Arena.release m.store.arena with
  | .ok arena => ({ m with env := outer, store := { m.store with arena } }, none)
  | .error fault => ({ m with env := outer }, some fault)

/-- Goes on after a statement. None at the end of the program. -/
def completeStep (m : Machine) (c : Completion) : DoneCont → Option Machine
  | .program rest =>
    match c, rest with
    | .failing _, _ | _, [] => none
    | _, s :: rest => some (m.exec s (.program rest))
  | .sequence rest k =>
    match c, rest with
    | .normal, s :: rest => some (m.exec s (.sequence rest k))
    | _, _ => some (m.complete c k)
  | .again condition body k =>
    match c with
    | .normal => some (m.eval condition (.test condition body k))
    | _ => some (m.complete c k)
  | .leaveBlock outer k =>
    match m.leave outer [m.env] with
    | (m, none) => some (m.complete c k)
    | (m, some fault) => some (m.fail (.escape fault) k)
  | .leaveCall outer receiver result k =>
    match { m with depth := m.depth - 1 }.leave outer (m.env :: receiver.toList) with
    | (m, some fault) => some (m.fail (.escape fault) k.enclosing)
    | (m, none) =>
      match c, result with
      | .failing fault, _ => some (m.fail fault k.enclosing)
      | _, some i => some (m.give (.object i) k)
      | .returning v, none => some (m.give v k)
      | .normal, none => some (m.give .nil k)

/-- One step. None when the program has ended. -/
def step (m : Machine) : Option Machine :=
  match m.control with
  | .eval e k => some (m.evalStep e k)
  | .exec s k => some (m.execStep s k)
  | .value v k => some (m.valueStep v k)
  | .complete c k => m.completeStep c k

def run : Nat → Machine → Machine
  | 0, m => m
  | n + 1, m =>
    match m.step with
    | some m => run n m
    | none => m

inductive Outcome where
  | finished
  | failed (fault : Fault)
  | unfinished
deriving DecidableEq, Repr

def outcome (m : Machine) : Outcome :=
  match m.control with
  | .complete (.failing fault) (.program _) => .failed fault
  | .complete _ (.program []) => .finished
  | _ => .unfinished

def start (store : Store) (env : Handle) (program : Program Binding) : Machine :=
  { control := .complete .normal (.program program), store, env }

end Machine

end Lox
