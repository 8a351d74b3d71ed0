import Lox.Text.DecimalDigit
import Lox.Text.Quoted

namespace Lox

structure Options where
  file : Option String := none
  /-- Whether to show the syntax tree of the file instead of running it. -/
  tree : Bool := false
deriving DecidableEq, Repr

inductive Flag where
  | help
  | tree
deriving DecidableEq, Repr

inductive UsageError where
  | unrecognized (args : List String)
  | ignoredValue (flag : Flag) (value : String)
  | ambiguous (arg : String)
deriving DecidableEq, Repr

def Flag.names : Flag → String
  | help => "-h/--help"
  | tree => "--ast"

def UsageError.message : UsageError → String
  | unrecognized args => "unrecognized arguments: " ++ " ".intercalate args
  | ignoredValue flag value =>
    "argument " ++ flag.names ++ ": ignored explicit argument " ++ Text.quoted value
  | ambiguous arg => "ambiguous option: " ++ arg ++ " could match --help, --ast"

inductive Argument where
  | positional (text : String)
  /-- An option, with the value attached to it. -/
  | flag (flag : Flag) (value : Option String)
  /-- The one-letter option, with the letters after it. -/
  | letters (flag : Flag) (rest : String)
  | unknown (text : String)
deriving DecidableEq, Repr

namespace Argument

def longFlags : List (String × Flag) := [("--help", .help), ("--ast", .tree)]

/-- A text without the line end, if any, that ends it. -/
def dropLineEnd (cs : List Char) : List Char := if cs.getLast? = some '\n' then cs.dropLast else cs

/-- A minus sign with digits of any script, which may have a point before the last of them. A line
end may follow. -/
def isNegativeNumber (arg : String) : Bool :=
  match dropLineEnd arg.toList with
  | '-' :: rest =>
    let whole := rest.takeWhile Text.isDecimalDigit
    match rest.dropWhile Text.isDecimalDigit with
    | [] => !whole.isEmpty
    | '.' :: fraction => !fraction.isEmpty && fraction.all Text.isDecimalDigit
    | _ => false
  | _ => false

def splitValue (arg : String) : String × Option String :=
  let name := arg.toList.takeWhile (· ≠ '=')
  match arg.toList.dropWhile (· ≠ '=') with
  | [] => (arg, none)
  | _ :: value => (String.ofList name, some (String.ofList value))

/-- The long options that a word can be short for. -/
def candidates (word : String) : List Flag :=
  (longFlags.filter fun (name, _) => word.toList.isPrefixOf name.toList).map (·.2)

/-- An argument that looks like an option and is none. -/
def other (arg : String) : Argument :=
  if isNegativeNumber arg || arg.toList.contains ' ' then .positional arg else .unknown arg

def ofString (arg : String) : Except UsageError Argument :=
  match arg.toList with
  | '-' :: '-' :: _ =>
    let (word, value) := splitValue arg
    match candidates word with
    | [f] => .ok (.flag f value)
    | [] => .ok (other arg)
    | _ => .error (.ambiguous arg)
  | '-' :: 'h' :: [] => .ok (.flag .help none)
  | '-' :: 'h' :: '=' :: [] => .ok (.flag .help (some ""))
  | '-' :: 'h' :: '=' :: value => .ok (.letters .help (String.ofList value))
  | '-' :: 'h' :: rest => .ok (.letters .help (String.ofList rest))
  | '-' :: _ :: _ => .ok (other arg)
  | _ => .ok (.positional arg)

end Argument

/-- Arguments read so far: the options, whether the file has been given, and what is left over. -/
structure Gathered where
  options : Options := {}
  taken : Bool := false
  extras : List String := []

/-- Why reading of the arguments ends early. -/
inductive Interruption where
  | help
  | refused (error : UsageError)
deriving DecidableEq, Repr

namespace Gathered

def positional (g : Gathered) (text : String) : Gathered :=
  if g.taken then { g with extras := g.extras ++ [text] }
  else { g with taken := true, options := { g.options with file := some text } }

def flag (g : Gathered) : Flag → Except Interruption Gathered
  | .help => .error .help
  | .tree => .ok { g with options := { g.options with tree := true } }

def push (g : Gathered) : Argument → Except Interruption Gathered
  | .positional text => .ok (g.positional text)
  | .flag f none => g.flag f
  | .flag f (some value) => .error (.refused (.ignoredValue f value))
  | .letters f rest =>
    match rest.toList.dropWhile (· = 'h') with
    | [] => g.flag f
    | value => .error (.refused (.ignoredValue f (String.ofList value)))
  | .unknown text => .ok { g with extras := g.extras ++ [text] }

end Gathered

namespace Options

/-- The word behind which every argument is positional. -/
def separator : String := "--"

def isPositional : Argument → Bool
  | .positional _ => true
  | _ => false

/-- Reads arguments. The separator is dropped where it stands next to the file, or where the file
would stand; elsewhere it is left over like any other word. -/
def ofArguments (args : List String) : Except Interruption Options := do
  let before := args.takeWhile (· ≠ separator)
  let behind := args.dropWhile (· ≠ separator)
  let forms ← (before.mapM Argument.ofString).mapError .refused
  let last := (forms.reverse.takeWhile isPositional).length
  let g ← (forms.take (forms.length - last)).foldlM Gathered.push {}
  let tail := before.drop (before.length - last)
  let g : Gathered :=
    match g.taken, tail with
    | false, [] => behind.tail.foldl Gathered.positional g
    | false, [file] => behind.tail.foldl Gathered.positional (g.positional file)
    | _, _ => (tail ++ behind).foldl Gathered.positional g
  if g.extras.isEmpty then return g.options else .error (.refused (.unrecognized g.extras))

def usage : String := "usage: loxplus [-h] [--ast] [file]\n"

def help : String :=
  usage ++ "\npositional arguments:\n" ++
  "  file        file to interpret and run (if empty, goes to command-line mode)\n\n" ++
  "options:\n" ++
  "  -h, --help  show this help message and exit\n" ++
  "  --ast       print the syntax tree of file instead of running it\n"

def refusal (error : UsageError) : String := usage ++ "loxplus: error: " ++ error.message ++ "\n"

end Options

end Lox
