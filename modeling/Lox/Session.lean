import Lox.Compile
import Lox.Machine.Step
import Lox.Scope.Resolve

namespace Lox

structure Session where
  /-- Whether each run starts with a clean log. Otherwise errors stay. -/
  interactive : Bool
  log : Log
  store : Store
  env : Handle := globals

inductive Answer where
  | code (n : Nat)
  /-- The run broke off without a report. -/
  | escaped (fault : ArenaFault)
  /-- The run did not end within the steps it was given. -/
  | unfinished
deriving DecidableEq, Repr

/-- A run: the session after it, what was written, and the answer. -/
structure Run where
  session : Session
  output : List Output
  answer : Answer

def ArenaFault.text : ArenaFault → String
  | missing (some h) => toString h
  | missing none => "None"
  | unbound name | undefined name => Text.quoted name
  | endless => "endless chain"

/-- A look-up failure that breaks out of a run. -/
def ArenaFault.stray (fault : ArenaFault) : Escape := .stray "KeyError" fault.text

namespace Session

def emptyStore : Store := { arena := (Arena.new {} none).2 }

/-- In an interactive session a failure does not end the process. -/
def new (interactive : Bool) : Session :=
  { interactive, log := { fatal := !interactive }, store := emptyStore }

/-- Reports diagnostics, and gives the output that shows them. -/
def report (s : Session) (ds : List Diagnostic) : Session × List Output :=
  ({ s with log := s.log.reportAll ds }, ds.map .diagnostic)

def adopt (s : Session) (m : Machine) : Session := { s with store := m.store, env := m.env }

def execute (limit : Nat) (s : Session) (program : Program Binding) : Run :=
  let m := (Machine.start s.store s.env program).run limit
  let s := s.adopt m
  let printed := m.printed.reverse.map .text
  match m.outcome with
  | .finished => { session := s, output := printed, answer := .code s.log.exitCode }
  | .failed (.error fault line) =>
    let (s, shown) := s.report [.runtimeError line fault.message]
    { session := s, output := printed ++ shown, answer := .code s.log.exitCode }
  | .failed (.escape fault) => { session := s, output := printed, answer := .escaped fault }
  | .unfinished => { session := s, output := printed, answer := .unfinished }

/-- Runs a source text. A compile-time error, also one of an earlier run that is still in the log,
stops it before anything is executed. -/
def run (limit : Nat) (s : Session) (source : String) : Run :=
  let s := if s.interactive then { s with log := s.log.reset } else s
  let (program, ds) := readProgram source
  let (s, shown) := s.report ds
  if s.log.compileError then { session := s, output := shown, answer := .code s.log.exitCode }
  else
    let (s, misused) := s.report (program.misuses.map (·.diagnostic))
    if s.log.compileError then
      { session := s, output := shown ++ misused, answer := .code s.log.exitCode }
    else s.execute limit program.resolve

end Session

end Lox
