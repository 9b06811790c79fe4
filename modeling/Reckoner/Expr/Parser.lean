import Reckoner.Expr

/-!
Parsing, one token at a time. What is open to the left of the current place is a stack of frames,
innermost first, so nesting is limited by nothing but its length. A token that fits nowhere is
reported by what was expected in its place.
-/
namespace Reckoner

/-- A construct that waits for the operand, or the rest of the operand, to its right. -/
inductive Frame where
  | unary (operator : Token)
  | binary (left : Expr) (operator : Token) (level : Level)
  | group
deriving DecidableEq

namespace Frame

def isGroup : Frame → Bool
  | group => true
  | _ => false

/-- Closes the innermost frames over an operand: unary operators always, binary ones of at least
the given rank, and no parenthesis. -/
def reduce (rank : Nat) : List Frame → Expr → List Frame × Expr
  | unary operator :: stack, e => reduce rank stack (.unary operator e)
  | binary left operator level :: stack, e =>
    if rank ≤ level.rank then reduce rank stack (.binary left operator e)
    else (binary left operator level :: stack, e)
  | stack, e => (stack, e)

end Frame

inductive ParseState where
  | operand (stack : List Frame)
  | complete (stack : List Frame) (e : Expr)
deriving DecidableEq

inductive ParseStep where
  | next (state : ParseState)
  | done (tree : Expr)
  | reject
deriving DecidableEq

/-- The value of a token that is an operand by itself. Numbers and strings are operands only if
they carry a literal, which may be of any type. -/
def Token.operand? (t : Token) : Option Value :=
  match t.kind with
  | .keyword .true_ => some (.bool true)
  | .keyword .false_ => some (.bool false)
  | .keyword .nil_ => some .nil
  | .number | .string => t.literal
  | _ => none

namespace ParseState

def fault : ParseState → Fault
  | operand _ => .expectedExpression
  | complete stack _ => if stack.any Frame.isGroup then .expectedRightParen else .expectedEnd

def stepOperand (stack : List Frame) (t : Token) : ParseStep :=
  if t.kind.isUnary then .next (operand (.unary t :: stack))
  else if t.kind = .leftParen then .next (operand (.group :: stack))
  else
    match t.operand? with
    | some value => .next (complete stack (.literal value))
    | none => .reject

/-- A complete operand is continued by a binary operator, by the parenthesis that closes the
innermost group, or by the end where no group is open. -/
def stepComplete (stack : List Frame) (e : Expr) (t : Token) : ParseStep :=
  match t.kind.level? with
  | some level =>
    let (stack, left) := Frame.reduce level.rank stack e
    .next (operand (.binary left t level :: stack))
  | none =>
    match t.kind, Frame.reduce 0 stack e with
    | .rightParen, (.group :: stack, inner) => .next (complete stack (.grouping inner))
    | .eof, ([], tree) => .done tree
    | _, _ => .reject

def step : ParseState → Token → ParseStep
  | operand stack, t => stepOperand stack t
  | complete stack e, t => stepComplete stack e t

/-- Runs through the tokens. If they run out, the fault is reported at the place of the last one,
which is given by `line` and `span`. -/
def run (state : ParseState) (line : Nat) (span : Span) : List Token → Except Diagnostic Expr
  | [] => .error (state.fault.report line span)
  | t :: tokens =>
    match state.step t with
    | .next state => run state t.line t.span tokens
    | .done tree => .ok tree
    | .reject => .error (state.fault.report t.line t.span)

end ParseState

/-- The tree of a token list up to the first token of kind `eof` that can end it. -/
def Expr.parse (tokens : List Token) : Except Diagnostic Expr :=
  (ParseState.operand []).run 1 ⟨0, 0⟩ tokens

end Reckoner
