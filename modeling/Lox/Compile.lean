import Lox.Diagnostic
import Lox.Grammar.Statement
import Lox.Scope.Misuse
import Lox.Token.Scan

namespace Lox

def LexicalError.diagnostic (e : LexicalError) : Diagnostic :=
  .compileError e.line .nowhere e.fault.message

/-- A syntax error in a text that ends on `lastLine`. -/
def SyntaxError.diagnostic (lastLine : Nat) (e : SyntaxError) : Diagnostic :=
  match e.found with
  | some t => .compileError t.pos.line (.lexeme t.lexeme) e.fault.message
  | none => .compileError lastLine .endOfText e.fault.message

def Misuse.diagnostic (m : Misuse) : Diagnostic :=
  .compileError m.line (.lexeme m.word) m.kind.message

/-- Scans and parses a text. It is parsed even if it has lexical errors. -/
def readProgram (source : String) : Program Grammar.Unresolved × List Diagnostic :=
  let scanned := scan source
  let parsed := parse scanned.list.tokens
  (parsed.program, scanned.errors.map (·.diagnostic) ++
    parsed.errors.map (·.diagnostic scanned.list.lastLine))

end Lox
