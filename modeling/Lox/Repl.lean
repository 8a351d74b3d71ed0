import Lox.Session
import Lox.Text.Blank

namespace Lox

/-- Parts of a text in which brackets count differently. -/
inductive Region where
  | code
  | string
  | comment
deriving DecidableEq, Repr

/-- The characters of a text outside strings and comments. A string without an end runs to the end
of the text, a comment to the end of its line. -/
def codeChars : Region → List Char → List Char
  | _, [] => []
  | .code, '"' :: rest => codeChars .string rest
  | .code, '/' :: '/' :: rest => codeChars .comment rest
  | .code, c :: rest => c :: codeChars .code rest
  | .string, '"' :: rest => codeChars .code rest
  | .string, _ :: rest => codeChars .string rest
  | .comment, '\n' :: rest => '\n' :: codeChars .code rest
  | .comment, _ :: rest => codeChars .comment rest

/-- Whether a text opens more braces, or more parentheses, than it closes. -/
def isOpen (text : String) : Bool :=
  let code := codeChars .code text.toList
  code.count '\x7d' < code.count '\x7b' || code.count ')' < code.count '('

def joinLine (pending line : String) : String :=
  if pending.isEmpty then line else pending ++ "\n" ++ line

inductive Command where
  | nothing
  | help
  | exit (argument : String)
  | endOfInput (argument : String)
  | source (text : String)
deriving DecidableEq, Repr

/-- A command is a word at the start of a line; the rest of the line is its argument. A question mark
asks for help, and an exclamation mark is never a command. -/
def Command.ofLine (line : String) : Command :=
  let text := Text.trimChars line.toList
  match text with
  | [] => .nothing
  | '?' :: _ => .help
  | _ =>
    let word := String.ofList (text.takeWhile Scan.isWordChar)
    let argument := String.ofList (Text.trimChars (text.dropWhile Scan.isWordChar))
    if word = "help" then .help
    else if word = "exit" then .exit argument
    else if word = "EOF" then .endOfInput argument
    else .source (String.ofList text)

/-- A prompt that asks for a new text, and one that asks for more of it. -/
def Repl.firstPrompt : String := "> "

def Repl.nextPrompt : String := ". "

/-- A session at the prompt, with the text that waits for more lines. -/
structure Repl where
  session : Session := .new true
  pending : String := ""
  prompt : String := Repl.firstPrompt

/-- The answer to a line: the prompt after it, what was written, whether to stop, and the source text
that was run, if any, with its run. -/
structure Reaction where
  repl : Repl
  output : List Output := []
  stop : Bool := false
  ran : Option (String × Run) := none

/-- What is reported of a run that breaks off without a report. -/
def Answer.strays : Answer → List Diagnostic
  | .escaped fault => fault.stray.diagnostic?.toList
  | .code _ | .unfinished => []

namespace Repl

def intro : String :=
  "Lox-plus interpreter :: Python backend\nType '?' or 'help' for more information."

def helpText : String :=
  "Welcome to the Lox-plus interpreter!\n\n" ++
  "Lox-plus is a small dynamically-typed scripting language with closures and \n" ++
  "classes. Statements end with ';' and blocks can span several lines.\n\n" ++
  "Try it out by typing 'var greeting = \"hi\";'. Next, try typing \n" ++
  "'print greeting;'. Globals are kept until you exit."

def report (r : Repl) (ds : List Diagnostic) : Repl × List Output :=
  let (session, shown) := r.session.report ds
  ({ r with session }, shown)

/-- Leaves the prompt, unless there is an argument. -/
def leave (r : Repl) (argument : String) : Reaction :=
  if argument.isEmpty then { repl := r, stop := true }
  else
    let (r, shown) := r.report [.warning ("unrecognized argument to exit: '" ++ argument ++ "'")]
    { repl := r, output := shown }

def cleared (r : Repl) : Repl := { r with pending := "", prompt := firstPrompt }

/-- Runs a source text. What breaks out of the run is reported. -/
def runSource (limit : Nat) (r : Repl) (source : String) : Reaction :=
  let run := r.session.run limit source
  let (r, shown) := { r with session := run.session }.report run.answer.strays
  { repl := r, output := run.output ++ shown, ran := some (source, run) }

/-- Takes one line. Source text is run as soon as its brackets are closed. -/
def feed (limit : Nat) (r : Repl) (line : String) : Reaction :=
  match Command.ofLine line with
  | .nothing => { repl := r }
  | .help => { repl := r, output := [.text helpText] }
  | .exit argument => r.leave argument
  | .endOfInput argument =>
    let reaction := r.leave argument
    { reaction with output := .text "" :: reaction.output }
  | .source text =>
    let joined := joinLine r.pending text
    if isOpen joined then { repl := { r with pending := joined, prompt := nextPrompt } }
    else r.cleared.runSource limit joined

/-- The end of the input acts as a command. -/
def endLine : String := "EOF"

/-- All that is written while lines are taken up to a stop or the end of the input. -/
def transcript (limit : Nat) (r : Repl) : List String → String
  | [] => r.prompt ++ Output.render (r.feed limit endLine).output
  | line :: rest =>
    let reaction := r.feed limit line
    r.prompt ++ Output.render reaction.output ++
      (if reaction.stop then "" else reaction.repl.transcript limit rest)

end Repl

end Lox
