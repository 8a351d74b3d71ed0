import Lox.Decimal.Layout
import Lox.Text.Quoted
import Lox.Tree

namespace Lox

/-- A node of an outline: its kind, its attributes with their text, and its children. -/
inductive Outline where
  | node (kind : String) (attributes : List (String × String)) (children : List Outline)

namespace Outline

def indent (depth : Nat) : String := String.ofList (List.replicate (4 * depth) ' ')

def attributeText (attributes : List (String × String)) : String :=
  ", ".intercalate (attributes.map fun (name, text) => name ++ "=" ++ text)

mutual

def write (out : String) (depth : Nat) : Outline → String
  | node kind attributes children =>
    let out := out ++ indent depth ++ kind ++ "(" ++ attributeText attributes
    match children with
    | [] => out ++ ")"
    | first :: rest =>
      let out := out ++ (if attributes.isEmpty then "" else ", ") ++ "nodes=["
      let out := writeRest (write (out ++ "\n") (depth + 1) first) (depth + 1) rest
      out ++ "\n" ++ indent depth ++ "])"

/-- Writes children behind the first one, each behind a comma and on a new line. -/
def writeRest (out : String) (depth : Nat) : List Outline → String
  | [] => out
  | child :: rest => writeRest (write (out ++ ",\n") depth child) depth rest

end

def render (o : Outline) : String := o.write "" 0

end Outline

def Literal.outlineText : Literal → String
  | nil => "None"
  | bool b => if b then "True" else "False"
  | number x => Decimal.text x
  | string s => Text.quoted s

def wordText (word : String) : String := "'" ++ word ++ "'"

/-- A field that is a list of nodes: its nodes are children, unless there are none. -/
def listField (name : String) (nodes : List Outline) : List (String × String) × List Outline :=
  if nodes.isEmpty then ([(name, "[]")], []) else ([], nodes)

variable {ρ : Type}

mutual

def Expr.outline : Expr ρ → Outline
  | .literal value => .node "Literal" [("value", value.outlineText)] []
  | .grouping inner => .node "Grouping" [] [inner.outline]
  | .unary op _ operand => .node "Unary" [("operator", wordText op.text)] [operand.outline]
  | .binary left op _ right =>
    .node "Binary" [("operator", wordText op.text)] [left.outline, right.outline]
  | .logical left op right =>
    .node "Logical" [("operator", wordText op.text)] [left.outline, right.outline]
  | .read name _ => .node "Variable" [("name", wordText name.name)] []
  | .assign name _ value => .node "Assign" [("name", wordText name.name)] [value.outline]
  | .call callee args _ =>
    let (empty, nodes) := listField "arguments" (Expr.outlines args)
    .node "Call" (("paren", wordText Symbol.rightParen.text) :: empty) (callee.outline :: nodes)
  | .get object name => .node "Get" [("name", wordText name.name)] [object.outline]
  | .set object name value =>
    .node "Set" [("name", wordText name.name)] [object.outline, value.outline]
  | .receiver _ _ => .node "This" [("keyword", wordText Keyword.thisWord.text)] []

def Expr.outlines : List (Expr ρ) → List Outline
  | [] => []
  | e :: rest => e.outline :: Expr.outlines rest

end

/-- A field that may hold one node: the node is a child, its absence an attribute. -/
def optionField (name : String) (node : Option Outline) : List (String × String) × List Outline :=
  match node with
  | none => ([(name, "None")], [])
  | some node => ([], [node])

mutual

def Stmt.outline : Stmt ρ → Outline
  | .expression e => .node "Expression" [] [e.outline]
  | .print e => .node "Print" [] [e.outline]
  | .varDecl name init =>
    let (absent, nodes) := optionField "initializer" (init.map Expr.outline)
    .node "Var" (("name", wordText name.name) :: absent) nodes
  | .block body =>
    let (empty, nodes) := listField "statements" (Stmt.outlines body)
    .node "Block" empty nodes
  | .branch condition yes none =>
    .node "If" [("else_branch", "None")] [condition.outline, yes.outline]
  | .branch condition yes (some no) =>
    .node "If" [] [condition.outline, yes.outline, no.outline]
  | .loop condition body => .node "While" [] [condition.outline, body.outline]
  | .funDecl decl => decl.outline
  | .ret _ value =>
    let (absent, nodes) := optionField "value" (value.map Expr.outline)
    .node "Return" (("keyword", wordText Keyword.returnWord.text) :: absent) nodes
  | .classDecl name methods =>
    let (empty, nodes) := listField "methods" (FunDecl.outlines methods)
    .node "Class" (("name", wordText name.name) :: empty) nodes

def Stmt.outlines : List (Stmt ρ) → List Outline
  | [] => []
  | s :: rest => s.outline :: Stmt.outlines rest

def FunDecl.outline : FunDecl ρ → Outline
  | ⟨name, params, body⟩ =>
    let (empty, nodes) := listField "body" (Stmt.outlines body)
    .node "Function"
      (("name", wordText name.name) ::
        ("params", "[" ++ ", ".intercalate (params.map (·.name)) ++ "]") :: empty) nodes

def FunDecl.outlines : List (FunDecl ρ) → List Outline
  | [] => []
  | f :: rest => f.outline :: FunDecl.outlines rest

end

def Stmt.display (s : Stmt ρ) : String := s.outline.render

end Lox
