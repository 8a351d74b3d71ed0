import Lox.Value

namespace Lox

inductive RuntimeFault where
  | operandNotNumber
  | operandsDiffer
  | operandsNotAddable
  | operandsNotNumbers
  | notCallable
  | wrongArity (expected got : Nat)
  | stackOverflow
  | noProperties
  | noFields
  | undefinedProperty (name : String)
  | undefinedVariable (name : String)
deriving DecidableEq, Repr

def RuntimeFault.message : RuntimeFault → String
  | operandNotNumber => "Operand must be a number."
  | operandsDiffer => "Operands must be of the same type."
  | operandsNotAddable => "Operands must be two numbers or two strings."
  | operandsNotNumbers => "Operands must be numbers."
  | notCallable => "Can only call functions and classes."
  | wrongArity expected got => s!"Expected {expected} arguments but got {got}."
  | stackOverflow => "Stack overflow."
  | noProperties => "Only instances have properties."
  | noFields => "Only instances have fields."
  | undefinedProperty name => "Undefined property '" ++ name ++ "'."
  | undefinedVariable name => "Undefined variable '" ++ name ++ "'."

def UnaryOp.apply : UnaryOp → Value → Except RuntimeFault Value
  | .not, v => .ok (.bool !v.isTruthy)
  | .negate, .number x => .ok (.number (-x))
  | .negate, _ => .error .operandNotNumber

/-- The operators on two numbers. Division follows the rules of doubles, also by zero. -/
def BinaryOp.onNumbers (op : BinaryOp) (x y : Float) : Value :=
  match op with
  | .equal => .bool (x == y)
  | .notEqual => .bool !(x == y)
  | .greater => .bool (x > y)
  | .greaterEqual => .bool (x ≥ y)
  | .less => .bool (x < y)
  | .lessEqual => .bool (x ≤ y)
  | .subtract => .number (x - y)
  | .add => .number (x + y)
  | .divide => .number (x / y)
  | .multiply => .number (x * y)

/-- Any two values can be compared for equality. All other operators need operands of the same kind:
sums take numbers or strings, the rest numbers. -/
def BinaryOp.apply (op : BinaryOp) (left right : Value) : Except RuntimeFault Value :=
  match op with
  | .equal => .ok (.bool (left.equals right))
  | .notEqual => .ok (.bool !(left.equals right))
  | _ =>
    if left.kind ≠ right.kind then .error .operandsDiffer
    else
      match op, left, right with
      | _, .number x, .number y => .ok (op.onNumbers x y)
      | .add, .string s, .string t => .ok (.string (s ++ t))
      | .add, _, _ => .error .operandsNotAddable
      | _, _, _ => .error .operandsNotNumbers

/-- Whether a logical operator gives its left operand without evaluating the right one. -/
def LogicalOp.stopsAt : LogicalOp → Value → Bool
  | .or, v => v.isTruthy
  | .and, v => !v.isTruthy

end Lox
