import Lox.Token

namespace Lox

/-- The two kinds of function declarations, as error messages name them. -/
inductive FunctionKind where
  | function
  | method
deriving DecidableEq, Repr

def FunctionKind.text : FunctionKind → String
  | function => "function"
  | method => "method"

inductive SyntaxFault where
  | expression
  | invalidTarget
  | tooManyArguments
  | tooManyParameters
  /-- Something is missing: the text says what, and before or after what. -/
  | className | classOpen | classClose
  | variableName | variableEnd
  | functionName (kind : FunctionKind)
  | functionOpen (kind : FunctionKind)
  | functionBody (kind : FunctionKind)
  | parameterName | parametersClose
  | ifOpen | ifClose
  | whileOpen | whileClose
  | forOpen | forCondition | forClose
  | printEnd | returnEnd | blockClose | expressionEnd
  | propertyName | argumentsClose | groupingClose
deriving DecidableEq, Repr

/-- The largest number of parameters of a function, and of arguments of a call. -/
def maxArguments : Nat := 8

def SyntaxFault.message : SyntaxFault → String
  | expression => "Expect expression."
  | invalidTarget => "Invalid assignment target."
  | tooManyArguments => s!"Cannot have more than {maxArguments} arguments."
  | tooManyParameters => s!"Cannot have more than {maxArguments} parameters."
  | className => "Expect class name."
  | classOpen => "Expect '\x7b' before class body."
  | classClose => "Expect '\x7d' after class body."
  | variableName => "Expect variable name."
  | variableEnd => "Expect ';' after variable declaration."
  | functionName kind => "Expect " ++ kind.text ++ " name."
  | functionOpen kind => "Expect '(' after " ++ kind.text ++ " name."
  | functionBody kind => "Expect '\x7b' before " ++ kind.text ++ " body."
  | parameterName => "Expect parameter name."
  | parametersClose => "Expect ')' after parameters."
  | ifOpen => "Expect '(' after 'if'."
  | ifClose => "Expect ')' after if condition."
  | whileOpen => "Expect '(' after 'while'."
  | whileClose => "Expect ')' after condition."
  | forOpen => "Expect '(' after 'for'."
  | forCondition => "Expect ';' after loop condition."
  | forClose => "Expect ')' after for clauses."
  | printEnd => "Expect ';' after value."
  | returnEnd => "Expect ';' after return value."
  | blockClose => "Expect '\x7d' after block."
  | expressionEnd => "Expect ';' after expression."
  | propertyName => "Expect property name after '.'."
  | argumentsClose => "Expect ')' after arguments."
  | groupingClose => "Expect ')' after expression."

/-- A fault and the token it was found at, none at the end of the text. -/
structure SyntaxError where
  fault : SyntaxFault
  found : Option Token
deriving DecidableEq, Repr

end Lox
