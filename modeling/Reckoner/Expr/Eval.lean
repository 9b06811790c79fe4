import Reckoner.Expr

/-!
Evaluation. Operands are evaluated from left to right before the operator looks at them; the first
failure ends it and blames an operator. Types of values are checked in the same order, and a machine
without recursion on the tree runs its nodes in post-order over a stack of values.
-/
namespace Reckoner

inductive RuntimeFault where
  | operandNotNumber
  | operandsNotNumbers
  | unknownUnary
  | unknownBinary
deriving DecidableEq, Repr

structure RuntimeError where
  fault : RuntimeFault
  token : Token
deriving DecidableEq

namespace RuntimeError

def message (e : RuntimeError) : String :=
  match e.fault with
  | .operandNotNumber => "Operand must be a number."
  | .operandsNotNumbers => "Operands must be numbers."
  | .unknownUnary => s!"Unknown unary operator '{e.token.lexeme}'."
  | .unknownBinary => s!"Unknown binary operator '{e.token.lexeme}'."

def layout (message : String) (line : Nat) : String :=
  s!"{message}\n[line {line}]"

def text (e : RuntimeError) : String :=
  layout e.message e.token.line

end RuntimeError

namespace Value

def applyUnary (operator : Token) (value : Value) : Except RuntimeError Value :=
  match operator.kind, value with
  | .minus, .number x => .ok (.number (-x))
  | .minus, _ => .error ⟨.operandNotNumber, operator⟩
  | .bang, value => .ok (.bool (!value.truthy))
  | _, _ => .error ⟨.unknownUnary, operator⟩

def numeric (operator : Token) (f : Float → Float → Value) : Value → Value →
    Except RuntimeError Value
  | number x, number y => .ok (f x y)
  | _, _ => .error ⟨.operandsNotNumbers, operator⟩

def plus (operator : Token) : Value → Value → Except RuntimeError Value
  | str s, str t => .ok (.str (s ++ t))
  | a, b => numeric operator (fun x y => .number (x + y)) a b

def applyBinary (operator : Token) (a b : Value) : Except RuntimeError Value :=
  match operator.kind with
  | .minus => numeric operator (fun x y => .number (x - y)) a b
  | .slash => numeric operator (fun x y => .number (x / y)) a b
  | .star => numeric operator (fun x y => .number (x * y)) a b
  | .plus => plus operator a b
  | .greater => numeric operator (fun x y => .bool (y.lt x)) a b
  | .greaterEqual => numeric operator (fun x y => .bool (y.le x)) a b
  | .less => numeric operator (fun x y => .bool (x.lt y)) a b
  | .lessEqual => numeric operator (fun x y => .bool (x.le y)) a b
  | .bangEqual => .ok (.bool (!a.equals b))
  | .equalEqual => .ok (.bool (a.equals b))
  | _ => .error ⟨.unknownBinary, operator⟩

/-! An operator that fails is itself to blame. -/

section
variable {operator : Token} {error : RuntimeError} {a b value : Value}

theorem numeric_eq_error {f : Float → Float → Value}
    (h : numeric operator f a b = .error error) : error = ⟨.operandsNotNumbers, operator⟩ := by
  unfold numeric at h
  split at h <;> cases h
  rfl

theorem plus_eq_error (h : plus operator a b = .error error) :
    error = ⟨.operandsNotNumbers, operator⟩ := by
  unfold plus at h
  split at h
  next => cases h
  next => exact numeric_eq_error h

theorem token_of_applyUnary (h : applyUnary operator value = .error error) :
    error.token = operator := by
  unfold applyUnary at h
  split at h <;> cases h <;> rfl

theorem token_of_applyBinary (h : applyBinary operator a b = .error error) :
    error.token = operator := by
  unfold applyBinary at h
  cases hk : operator.kind <;> rw [hk] at h
  case plus => rw [plus_eq_error h]
  case minus | slash | star | greater | greaterEqual | less | lessEqual =>
    rw [numeric_eq_error h]
  case bangEqual | equalEqual => cases h
  all_goals
    cases h
    rfl

end

end Value

def Expr.eval : Expr → Except RuntimeError Value
  | literal value => .ok value
  | grouping inner => inner.eval
  | unary operator operand => do
    let value ← operand.eval
    Value.applyUnary operator value
  | binary left operator right => do
    let a ← left.eval
    let b ← right.eval
    Value.applyBinary operator a b

inductive ValueType where
  | nil
  | bool
  | number
  | str
deriving DecidableEq, Repr

def Value.type : Value → ValueType
  | nil => .nil
  | bool _ => .bool
  | number _ => .number
  | str _ => .str

namespace ValueType

def checkUnary (operator : Token) (type : ValueType) : Except RuntimeError ValueType :=
  match operator.kind with
  | .minus => if type = number then .ok number else .error ⟨.operandNotNumber, operator⟩
  | .bang => .ok bool
  | _ => .error ⟨.unknownUnary, operator⟩

def checkBinary (operator : Token) (a b : ValueType) : Except RuntimeError ValueType :=
  match operator.kind with
  | .minus | .slash | .star =>
    if a = number ∧ b = number then .ok number else .error ⟨.operandsNotNumbers, operator⟩
  | .plus =>
    if a = b ∧ (a = number ∨ a = str) then .ok a else .error ⟨.operandsNotNumbers, operator⟩
  | .greater | .greaterEqual | .less | .lessEqual =>
    if a = number ∧ b = number then .ok bool else .error ⟨.operandsNotNumbers, operator⟩
  | .bangEqual | .equalEqual => .ok bool
  | _ => .error ⟨.unknownBinary, operator⟩

end ValueType

/-- The type of an expression; a left operand fails before a right one, and both before their
operator. -/
def Expr.check : Expr → Except RuntimeError ValueType
  | literal value => .ok value.type
  | grouping inner => inner.check
  | unary operator operand => do
    let type ← operand.check
    ValueType.checkUnary operator type
  | binary left operator right => do
    let a ← left.check
    let b ← right.check
    ValueType.checkBinary operator a b

inductive Node where
  | literal (value : Value)
  | grouping
  | unary (operator : Token)
  | binary (operator : Token)
deriving DecidableEq

def Expr.postorderOnto (rest : List Node) : Expr → List Node
  | literal value => .literal value :: rest
  | grouping inner => inner.postorderOnto (.grouping :: rest)
  | unary operator operand => operand.postorderOnto (.unary operator :: rest)
  | binary left operator right =>
    left.postorderOnto (right.postorderOnto (.binary operator :: rest))

def Expr.postorder (e : Expr) : List Node :=
  e.postorderOnto []

inductive Halt where
  | underflow
  | failed (error : RuntimeError)
deriving DecidableEq

namespace Node

/-- A literal pushes its value, and an operator replaces its operands, the right one on top, by its
result. -/
def execute : Node → List Value → Except Halt (List Value)
  | literal value, stack => .ok (value :: stack)
  | grouping, stack => .ok stack
  | unary operator, value :: stack =>
    ((Value.applyUnary operator value).map (· :: stack)).mapError .failed
  | binary operator, b :: a :: stack =>
    ((Value.applyBinary operator a b).map (· :: stack)).mapError .failed
  | _, _ => .error .underflow

def executeAll (nodes : List Node) (stack : List Value) : Except Halt (List Value) :=
  nodes.foldlM (fun stack node => node.execute stack) stack

end Node
end Reckoner
