import Reckoner.Expr

/-!
Parsing level by level. Every level of operators is a parser of its own, built from that of its
operands, and parentheses lead back to the loosest level. Of all that does not fit, what is furthest
into the tokens is reported.
-/
namespace Reckoner

/-- What stands in place of something else, if any token does, and what was expected there, if the
production that failed says so. -/
structure ParseError where
  span : Span
  found : Option Token
  message : Option Fault
deriving DecidableEq

namespace ParseError

def unexpected (t : Token) : ParseError :=
  ⟨t.span, some t, none⟩

def withMessage (fault : Fault) (e : ParseError) : ParseError :=
  { e with message := some fault }

def merge (e other : ParseError) : ParseError :=
  { e with message := e.message.or other.message }

def fault (e : ParseError) : Fault :=
  e.message.getD .expectedExpression

def report (e : ParseError) (endLine : Nat) : Diagnostic :=
  e.fault.report ((e.found.map Token.line).getD endLine) e.span

end ParseError

structure Failure where
  offset : Nat
  error : ParseError
deriving DecidableEq

/-- The one further on. At one place they are merged, so a message outlives the alternatives that
were tried there. -/
def Failure.max (a b : Failure) : Failure :=
  if a.offset < b.offset then b
  else if b.offset < a.offset then a
  else ⟨a.offset, a.error.merge b.error⟩

/-- A value, the place behind it, and the failure furthest on that was met on the way. -/
structure Success (α : Type) where
  value : α
  offset : Nat
  avoided : Option Failure
deriving DecidableEq

structure TokenStream where
  tokens : List Token
  endSpan : Span
deriving DecidableEq

def TokenStream.left (stream : TokenStream) (offset : Nat) : Nat :=
  stream.tokens.length - offset

abbrev TokenParser (α : Type) := TokenStream → Nat → Except Failure (Success α)

namespace TokenParser

variable {α β : Type}

def filterMap (f : Token → Except ParseError α) : TokenParser α := fun stream offset =>
  match stream.tokens[offset]? with
  | none => .error ⟨offset, ⟨stream.endSpan, none, none⟩⟩
  | some t =>
    match f t with
    | .ok value => .ok ⟨value, offset + 1, none⟩
    | .error e => .error ⟨offset, e⟩

def oneOf (kinds : List Kind) : TokenParser Token :=
  filterMap fun t => if t.kind ∈ kinds then .ok t else .error (.unexpected t)

def withMessage (fault : Fault) (p : TokenParser α) : TokenParser α := fun stream offset =>
  (p stream offset).mapError fun failure => ⟨failure.offset, failure.error.withMessage fault⟩

def map (f : α → β) (p : TokenParser α) : TokenParser β := fun stream offset =>
  (p stream offset).map fun success => ⟨f success.value, success.offset, success.avoided⟩

def andThen (p : TokenParser α) (q : TokenParser β) : TokenParser (α × β) := fun stream offset =>
  match p stream offset with
  | .error failure => .error failure
  | .ok first =>
    match q stream first.offset with
    | .error failure => .error (first.avoided.elim failure failure.max)
    | .ok second =>
      .ok ⟨(first.value, second.value), second.offset,
        first.avoided.merge Failure.max second.avoided⟩

def orElse (p q : TokenParser α) : TokenParser α := fun stream offset =>
  match p stream offset with
  | .ok success => .ok success
  | .error failure => (q stream offset).mapError failure.max

def rounds (p : TokenParser α) (stream : TokenStream) (offset : Nat) : Success (List α) :=
  match p stream offset with
  | .error failure => ⟨[], offset, some failure⟩
  | .ok success =>
    if stream.left success.offset < stream.left offset then
      let more := rounds p stream success.offset
      ⟨success.value :: more.value, more.offset, success.avoided.merge Failure.max more.avoided⟩
    else ⟨[success.value], success.offset, success.avoided⟩
termination_by stream.left offset

def many (p : TokenParser α) : TokenParser (List α) := fun stream offset =>
  .ok (p.rounds stream offset)

/-- A parser that leads back to itself, but not without having read something. -/
def recursive (p : TokenParser α → TokenParser α) (stream : TokenStream) (offset : Nat) :
    Except Failure (Success α) :=
  p (fun stream' offset' =>
    if stream'.left offset' < stream.left offset then recursive p stream' offset'
    else .error ⟨offset', ⟨stream'.endSpan, none, none⟩⟩) stream offset
termination_by stream.left offset

end TokenParser

namespace Descent

open TokenParser

def literal : TokenParser Expr :=
  filterMap fun t =>
    match t.kind, t.literal with
    | .keyword .false_, _ => .ok (.literal (.bool false))
    | .keyword .true_, _ => .ok (.literal (.bool true))
    | .keyword .nil_, _ => .ok (.literal .nil)
    | .number, some value | .string, some value => .ok (.literal value)
    | _, _ => .error ((ParseError.unexpected t).withMessage .expectedExpression)

def grouping (expression : TokenParser Expr) : TokenParser Expr :=
  ((((oneOf [.leftParen]).withMessage .expectedExpression).andThen expression).andThen
    ((oneOf [.rightParen]).withMessage .expectedRightParen)).map
      fun ((_, inner), _) => .grouping inner

def primary (expression : TokenParser Expr) : TokenParser Expr :=
  literal.orElse (grouping expression)

def unary (expression : TokenParser Expr) : TokenParser Expr :=
  ((oneOf [.bang, .minus]).many.andThen (primary expression)).map
    fun (operators, operand) => operators.foldr .unary operand

def binaryLevel (operand : TokenParser Expr) (operators : List Kind) : TokenParser Expr :=
  (operand.andThen ((oneOf operators).andThen operand).many).map fun (first, more) =>
    more.foldl (fun left (operator, right) => .binary left operator right) first

def factor (expression : TokenParser Expr) : TokenParser Expr :=
  binaryLevel (unary expression) [.slash, .star]

def term (expression : TokenParser Expr) : TokenParser Expr :=
  binaryLevel (factor expression) [.minus, .plus]

def comparison (expression : TokenParser Expr) : TokenParser Expr :=
  binaryLevel (term expression) [.greater, .greaterEqual, .less, .lessEqual]

def equality (expression : TokenParser Expr) : TokenParser Expr :=
  binaryLevel (comparison expression) [.bangEqual, .equalEqual]

def expression : TokenParser Expr :=
  recursive equality

def program : TokenParser Expr :=
  (expression.andThen ((oneOf [.eof]).withMessage .expectedEnd)).map Prod.fst

/-- An error behind the last token is reported at the place of that token. -/
def parse (tokens : List Token) : Except Diagnostic Expr :=
  let (endLine, endSpan) := (tokens.getLast?.map fun t => (t.line, t.span)).getD (1, ⟨0, 0⟩)
  match program ⟨tokens, endSpan⟩ 0 with
  | .ok success => .ok success.value
  | .error failure => .error (failure.error.report endLine)

end Descent
end Reckoner
