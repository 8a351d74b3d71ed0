import Lox.CommandLine

namespace Lox

/-- Enough steps for any program that ends. -/
def stepLimit : Nat := Nat.pow 2 60

def readBytes (file : String) : IO (Option (List Nat)) := do
  try
    let bytes ← IO.FS.readBinFile file
    return some (bytes.toList.map (·.toNat))
  catch _ => return none

/-- Takes lines at the prompt up to a stop. -/
partial def promptLoop (r : Repl) : IO Unit := do
  let stdout ← IO.getStdout
  stdout.putStr r.prompt
  stdout.flush
  let line ← (← IO.getStdin).getLine
  let line := if line.isEmpty then Repl.endLine else String.ofList (line.toList.takeWhile (· ≠ '\n'))
  let reaction := r.feed stepLimit line
  stdout.putStr (Output.render reaction.output)
  stdout.flush
  unless reaction.stop do promptLoop reaction.repl

def finish (exit : Exit) : IO UInt32 := do
  (← IO.getStdout).putStr exit.out
  (← IO.getStderr).putStr exit.err
  return UInt32.ofNat exit.code.toNat

end Lox

open Lox in
def main (args : List String) : IO UInt32 := do
  match Options.ofArguments args with
  | .ok { file := none, .. } =>
    IO.println Repl.intro
    promptLoop {}
    return UInt32.ofNat Log.okCode
  | .ok { file := some file, .. } =>
    let bytes ← readBytes file
    finish (CommandLine.run stepLimit (fun _ => bytes) "" args)
  | .error _ => finish (CommandLine.run stepLimit (fun _ => none) "" args)
