import Lox.Arguments
import Lox.Repl
import Lox.Text.Newlines
import Lox.Text.Utf8
import Lox.Tree.Outline

namespace Lox

/-- How a process ends: its exit code, whether it was cut short to end there, and what it wrote. -/
structure Exit where
  code : Int
  cutShort : Bool := false
  out : String := ""
  err : String := ""
deriving DecidableEq, Repr

namespace CommandLine

/-- The name of the text at the prompt, which no file may have. -/
def promptName : String := "<in>"

def undecodable (e : Text.Utf8Error) : Escape :=
  let where_ :=
    if e.length = 1 then "byte 0x" ++ String.ofList (Text.hex 2 e.byte) ++ s!" in position {e.position}"
    else s!"bytes in position {e.position}-{e.position + e.length - 1}"
  .stray "UnicodeDecodeError"
    ("'utf-8' codec can't decode " ++ where_ ++ ": " ++ e.fault.message)

def decode (bytes : List Nat) : Except Escape String :=
  match Text.decodeUtf8 bytes with
  | .ok cs => .ok (String.ofList (Text.unifyNewlines cs))
  | .error e => .error (undecodable e)

/-- The end of a process in which something broke out after `output`. -/
def escape (log : Log) (output : List Output) (e : Escape) : Exit :=
  let shown := e.diagnostic?.toList
  match log.escapeStatus e with
  | some status =>
    { code := status, cutShort := true, out := Output.render (output ++ shown.map .diagnostic) }
  | none => { code := Log.internalCode, out := Output.render (output ++ shown.map .diagnostic) }

/-- The end of a process whose file cannot be opened. -/
def unopened (file : String) : Exit :=
  { code := Log.usageCode,
    out := Output.render [.diagnostic (.failure false ("'" ++ file ++ "' could not be opened"))] }

def showTree (source : String) : Exit :=
  let (program, ds) := readProgram source
  let shown := ds.map .diagnostic ++ program.map fun s => .text s.display
  { code := (({} : Log).reportAll ds).exitCode, out := Output.render shown }

def runText (limit : Nat) (source : String) : Exit :=
  let run := (Session.new false).run limit source
  match run.answer with
  | .code n => { code := n, out := Output.render run.output }
  | .escaped fault => escape run.session.log run.output fault.stray
  | .unfinished => { code := Log.internalCode, out := Output.render run.output }

/-- Names that are refused before any file is opened. -/
def refusedName? (options : Options) (file : String) : Option Escape :=
  if !options.tree && file = promptName then
    some (.stray "ValueError" ("'" ++ promptName ++ "' is a reserved filename"))
  else if file.toList.contains '\x00' then some (.stray "ValueError" "embedded null byte")
  else none

/-- Runs a file, or shows its syntax tree. `read` gives the bytes of a file that can be opened. -/
def runFile (limit : Nat) (read : String → Option (List Nat)) (options : Options) (file : String) :
    Exit :=
  match refusedName? options file with
  | some e => escape {} [] e
  | none =>
    match read file with
    | none => unopened file
    | some bytes =>
      match decode bytes with
      | .error e => escape {} [] e
      | .ok source => if options.tree then showTree source else runText limit source

/-- The lines of an input. Only a newline ends a line, and the last line may lack it. -/
def inputLines (input : String) : List String :=
  let lines := input.splitOn "\n"
  if lines.getLast? = some "" then lines.dropLast else lines

def runPrompt (limit : Nat) (input : String) : Exit :=
  { code := Log.okCode,
    out := Repl.intro ++ "\n" ++ Repl.transcript limit {} (inputLines input) }

def run (limit : Nat) (read : String → Option (List Nat)) (input : String) (args : List String) :
    Exit :=
  match Options.ofArguments args with
  | .error .help => { code := Log.okCode, cutShort := true, out := Options.help }
  | .error (.refused e) => { code := 2, cutShort := true, err := Options.refusal e }
  | .ok options =>
    match options.file with
    | none => runPrompt limit input
    | some file => runFile limit read options file

end CommandLine

end Lox
