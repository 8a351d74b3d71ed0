import Lox.Decimal.Nearest

namespace Lox

inductive Symbol where
  | leftParen | rightParen | leftBrace | rightBrace | comma | dot | minus | plus | semicolon
  | slash | star | bang | bangEqual | equal | equalEqual | greater | greaterEqual | less | lessEqual
deriving DecidableEq, Repr

namespace Symbol

def text : Symbol → String
  | leftParen => "("
  | rightParen => ")"
  | leftBrace => "\x7b"
  | rightBrace => "\x7d"
  | comma => ","
  | dot => "."
  | minus => "-"
  | plus => "+"
  | semicolon => ";"
  | slash => "/"
  | star => "*"
  | bang => "!"
  | bangEqual => "!="
  | equal => "="
  | equalEqual => "=="
  | greater => ">"
  | greaterEqual => ">="
  | less => "<"
  | lessEqual => "<="

def label : Symbol → String
  | leftParen => "LEFT_PAREN"
  | rightParen => "RIGHT_PAREN"
  | leftBrace => "LEFT_BRACE"
  | rightBrace => "RIGHT_BRACE"
  | comma => "COMMA"
  | dot => "DOT"
  | minus => "MINUS"
  | plus => "PLUS"
  | semicolon => "SEMICOLON"
  | slash => "SLASH"
  | star => "STAR"
  | bang => "BANG"
  | bangEqual => "BANG_EQUAL"
  | equal => "EQUAL"
  | equalEqual => "EQUAL_EQUAL"
  | greater => "GREATER"
  | greaterEqual => "GREATER_EQUAL"
  | less => "LESS"
  | lessEqual => "LESS_EQUAL"

end Symbol

/-- Reserved words. -/
inductive Keyword where
  | andWord | classWord | elseWord | falseWord | funWord | forWord | ifWord | nilWord | orWord
  | printWord | returnWord | superWord | thisWord | trueWord | varWord | whileWord
deriving DecidableEq, Repr

namespace Keyword

def text : Keyword → String
  | andWord => "and"
  | classWord => "class"
  | elseWord => "else"
  | falseWord => "false"
  | funWord => "fun"
  | forWord => "for"
  | ifWord => "if"
  | nilWord => "nil"
  | orWord => "or"
  | printWord => "print"
  | returnWord => "return"
  | superWord => "super"
  | thisWord => "this"
  | trueWord => "true"
  | varWord => "var"
  | whileWord => "while"

def label : Keyword → String
  | andWord => "AND"
  | classWord => "CLASS"
  | elseWord => "ELSE"
  | falseWord => "FALSE"
  | funWord => "FUN"
  | forWord => "FOR"
  | ifWord => "IF"
  | nilWord => "NIL"
  | orWord => "OR"
  | printWord => "PRINT"
  | returnWord => "RETURN"
  | superWord => "SUPER"
  | thisWord => "THIS"
  | trueWord => "TRUE"
  | varWord => "VAR"
  | whileWord => "WHILE"

def all : List Keyword :=
  [andWord, classWord, elseWord, falseWord, funWord, forWord, ifWord, nilWord, orWord, printWord,
    returnWord, superWord, thisWord, trueWord, varWord, whileWord]

def ofText? (word : String) : Option Keyword := all.find? (·.text = word)

/-- Whether the word can begin a statement. Reading goes on there after an error. -/
def startsStatement : Keyword → Bool
  | classWord | funWord | varWord | forWord | ifWord | whileWord | printWord | returnWord => true
  | _ => false

end Keyword

/-- What a token is. A string holds the text between its quotes, and a number its digits. -/
inductive TokenKind where
  | symbol (s : Symbol)
  | keyword (k : Keyword)
  | identifier (name : String)
  | string (text : String)
  | number (text : String)
deriving DecidableEq, Repr

namespace TokenKind

def lexeme : TokenKind → String
  | symbol s => s.text
  | keyword k => k.text
  | identifier name => name
  | string text => "\"" ++ text ++ "\""
  | number text => text

def label : TokenKind → String
  | symbol s => s.label
  | keyword k => k.label
  | identifier _ => "IDENTIFIER"
  | string _ => "STRING"
  | number _ => "NUMBER"

end TokenKind

/-- A place in a source text: the line, counted from 1, on which a token ends, and the number of
characters before it. The offset tells apart any two tokens of a text. -/
structure Pos where
  line : Nat
  offset : Nat
deriving DecidableEq, Repr

structure Token where
  kind : TokenKind
  pos : Pos
deriving DecidableEq, Repr

namespace Token

def lexeme (t : Token) : String := t.kind.lexeme

def describe (label lexeme : String) (line : Nat) : String :=
  s!"Token({label}, '" ++ lexeme ++ s!"', line={line})"

end Token

/-- A scanned text: its tokens and the line on which the text ends. -/
structure TokenList where
  tokens : List Token
  lastLine : Nat
deriving DecidableEq, Repr

/-- The listing of a scanned text. The end of the text is listed last. -/
def TokenList.describe (t : TokenList) : List String :=
  t.tokens.map (fun k => Token.describe k.kind.label k.lexeme k.pos.line) ++
    [Token.describe "EOF" "" t.lastLine]

end Lox
