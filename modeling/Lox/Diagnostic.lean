namespace Lox

/-- What a compile-time error points at. -/
inductive Place where
  | nowhere
  | endOfText
  | lexeme (text : String)
deriving DecidableEq, Repr

def Place.text : Place → String
  | .nowhere => ""
  | .endOfText => " at end"
  | .lexeme text => " at '" ++ text ++ "'"

inductive Diagnostic where
  /-- An error found before the program runs. -/
  | compileError (line : Int) (place : Place) (message : String)
  /-- An error of the running program. -/
  | runtimeError (line : Int) (message : String)
  | warning (message : String)
  /-- A failure outside the program; an internal one was not foreseen. -/
  | failure (internal : Bool) (message : String)
deriving DecidableEq, Repr

inductive Style where
  | plain
  | bold
  | red
  | boldRed
  | boldMagenta
deriving DecidableEq, Repr

def Style.codes : Style → String
  | .plain => ""
  | .bold => "\x1b[1m"
  | .red => "\x1b[31m"
  | .boldRed => "\x1b[1m\x1b[31m"
  | .boldMagenta => "\x1b[1m\x1b[35m"

def Style.apply (style : Style) (text : String) : String :=
  match style with
  | .plain => text
  | _ => style.codes ++ text ++ "\x1b[0m"

namespace Diagnostic

def parts : Diagnostic → List (Style × String)
  | compileError line place message =>
    [(.bold, s!"[line {line}] "), (.boldRed, "Error" ++ place.text ++ ":"), (.plain, " " ++ message)]
  | runtimeError line message => [(.bold, s!"[line {line}] "), (.red, message)]
  | warning message => [(.boldMagenta, "warning: "), (.plain, message)]
  | failure internal message =>
    (if internal then [(.boldRed, "[internal] ")] else []) ++
      [(.boldRed, "error: "), (.plain, message)]

def plain (d : Diagnostic) : String := String.join (d.parts.map (·.2))

def styled (d : Diagnostic) : String := String.join (d.parts.map fun (style, text) => style.apply text)

end Diagnostic

/-- What is written to the terminal, line by line: text of the program or of the prompt, and
diagnostics. -/
inductive Output where
  | text (line : String)
  | diagnostic (d : Diagnostic)
deriving DecidableEq, Repr

def Output.plain : Output → String
  | .text line => line
  | .diagnostic d => d.plain

def Output.render (output : List Output) : String :=
  String.join (output.map fun o => o.plain ++ "\n")

structure Log where
  /-- Whether a failure ends the process. -/
  fatal : Bool := true
  compileError : Bool := false
  runtimeError : Bool := false
  /-- Plain text of each diagnostic, in order. -/
  messages : List String := []
deriving DecidableEq, Repr

namespace Log

def okCode : Nat := 0
def internalCode : Nat := 1
def usageCode : Nat := 64
def compileCode : Nat := 65
def runtimeCode : Nat := 70

def report (log : Log) (d : Diagnostic) : Log :=
  let log := { log with messages := log.messages ++ [d.plain] }
  match d with
  | .compileError .. => { log with compileError := true }
  | .runtimeError .. => { log with runtimeError := true }
  | _ => log

def reportAll (log : Log) (ds : List Diagnostic) : Log := ds.foldl report log

/-- Exit code for the errors seen so far. A compile-time error counts before a runtime error. -/
def exitCode (log : Log) : Nat :=
  if log.compileError then compileCode
  else if log.runtimeError then runtimeCode
  else okCode

def reset (log : Log) : Log := { fatal := log.fatal }

/-- The status with which a failure ends the process, if it does. -/
def failureStatus (log : Log) : Option Int := if log.fatal then some internalCode else none

end Log

inductive Escape where
  | interrupt
  /-- A request to end the process. -/
  | exit (status : Int)
  /-- An unforeseen error, by its class and text. -/
  | stray (name text : String)
deriving DecidableEq, Repr

/-- The diagnostic for what broke out. A request to end the process needs none. -/
def Escape.diagnostic? : Escape → Option Diagnostic
  | .interrupt => some (.failure false "keyboard interrupt")
  | .exit _ => none
  | .stray name text => some (.failure true ("unknown error: '" ++ name ++ ": " ++ text ++ "'"))

/-- The status with which an escape ends the process, if it does. -/
def Log.escapeStatus (log : Log) : Escape → Option Int
  | .exit status => some status
  | _ => log.failureStatus

end Lox
