import Reckoner.Expr

/-!
The grammar of expressions, as a relation between tokens and trees. It is said level by level and
without a parser: each level is a chain of operands of the next one, nested to the left. Where a
token list stops being the start of an expression is found with a counter of open parentheses, and
canonical trees are those whose source text says all there is to them.
-/
namespace Reckoner

inductive Nonterminal where
  | chain (level : Level)
  | unary
  | primary
deriving DecidableEq, Repr

namespace Level

def operators : Level → List Kind
  | equality => [.bangEqual, .equalEqual]
  | comparison => [.greater, .greaterEqual, .less, .lessEqual]
  | term => [.minus, .plus]
  | factor => [.slash, .star]

def operand : Level → Nonterminal
  | equality => .chain .comparison
  | comparison => .chain .term
  | term => .chain .factor
  | factor => .unary

theorem mem_operators_iff (level : Level) (kind : Kind) :
    kind ∈ level.operators ↔ kind.level? = some level := by
  cases level <;> cases kind <;> simp [operators, Kind.level?]

end Level

inductive Derives : Nonterminal → List Token → Expr → Prop where
  | operand {level : Level} {tokens : List Token} {e : Expr} :
      Derives level.operand tokens e → Derives (.chain level) tokens e
  | binary {level : Level} {before after : List Token} {left right : Expr} {operator : Token} :
      Derives (.chain level) before left → operator.kind ∈ level.operators →
      Derives level.operand after right →
      Derives (.chain level) (before ++ operator :: after) (.binary left operator right)
  | unary {tokens : List Token} {e : Expr} {operator : Token} :
      operator.kind = .bang ∨ operator.kind = .minus → Derives .unary tokens e →
      Derives .unary (operator :: tokens) (.unary operator e)
  | primary {tokens : List Token} {e : Expr} :
      Derives .primary tokens e → Derives .unary tokens e
  | true_ {t : Token} :
      t.kind = .keyword .true_ → Derives .primary [t] (.literal (.bool true))
  | false_ {t : Token} :
      t.kind = .keyword .false_ → Derives .primary [t] (.literal (.bool false))
  | nil_ {t : Token} :
      t.kind = .keyword .nil_ → Derives .primary [t] (.literal .nil)
  | literal {t : Token} {value : Value} :
      t.kind = .number ∨ t.kind = .string → t.literal = some value →
      Derives .primary [t] (.literal value)
  | group {tokens : List Token} {e : Expr} {opening closing : Token} :
      opening.kind = .leftParen → closing.kind = .rightParen →
      Derives (.chain .equality) tokens e →
      Derives .primary (opening :: tokens ++ [closing]) (.grouping e)

def Expr.operators : Expr → List Token
  | literal _ => []
  | grouping inner => inner.operators
  | unary operator operand => operator :: operand.operators
  | binary left operator right => left.operators ++ operator :: right.operators

inductive Viability where
  | operand (depth : Nat)
  | complete (depth : Nat)
deriving DecidableEq, Repr

namespace Viability

inductive Verdict where
  | next (state : Viability)
  | accept
  | reject
deriving DecidableEq, Repr

def fault : Viability → Fault
  | operand _ => .expectedExpression
  | complete 0 => .expectedEnd
  | complete (_ + 1) => .expectedRightParen

def judge : Viability → Token → Verdict
  | operand depth, t =>
    match t.kind with
    | .bang | .minus => .next (operand depth)
    | .leftParen => .next (operand (depth + 1))
    | .keyword .true_ | .keyword .false_ | .keyword .nil_ => .next (complete depth)
    | .number | .string => if t.literal.isSome then .next (complete depth) else .reject
    | _ => .reject
  | complete depth, t =>
    match t.kind, depth with
    | .rightParen, depth + 1 => .next (complete depth)
    | .eof, 0 => .accept
    | .bangEqual, _ | .equalEqual, _
    | .greater, _ | .greaterEqual, _ | .less, _ | .lessEqual, _
    | .minus, _ | .plus, _ | .slash, _ | .star, _ => .next (operand depth)
    | _, _ => .reject

/-- The fault of a token list and the number of tokens before it; none if the list is accepted. -/
def firstFault (state : Viability) (index : Nat) : List Token → Option (Fault × Nat)
  | [] => some (state.fault, index)
  | t :: tokens =>
    match state.judge t with
    | .next state => state.firstFault (index + 1) tokens
    | .accept => none
    | .reject => some (state.fault, index)

end Viability

def placeAt (tokens : List Token) (index : Nat) : Nat × Span :=
  match tokens[index]?.or tokens.getLast? with
  | some t => (t.line, t.span)
  | none => (1, ⟨0, 0⟩)

def Value.Writable : Value → Prop
  | .nil | .bool _ => True
  | .number x => x.toBits.toNat < Binary64.infinity
  | .str s => '"' ∉ s.toList

def Token.Plain (t : Token) : Prop :=
  t.kind.spelling? = some t.lexeme ∧ t.literal = none

/-- The tree may stand without parentheses where binary operators need at least the given rank. -/
def Expr.BindsAtLeast (rank : Nat) : Expr → Prop
  | binary _ operator _ => ∃ level, operator.kind.level? = some level ∧ rank ≤ level.rank
  | _ => True

/-- A rank above that of every level, for operands that may not be binary at all. -/
def Level.unaryRank : Nat :=
  4

namespace Expr

/-- Operators are spelled as their kind and stand at a place of the tree where they are read back
without parentheses. -/
def WellFormed : Expr → Prop
  | literal _ => True
  | grouping inner => inner.WellFormed
  | unary operator operand =>
    operator.kind.isUnary ∧ operator.Plain ∧ operand.BindsAtLeast Level.unaryRank ∧
      operand.WellFormed
  | binary left operator right =>
    ∃ level, operator.kind.level? = some level ∧ operator.Plain ∧
      left.BindsAtLeast level.rank ∧ right.BindsAtLeast (level.rank + 1) ∧
      left.WellFormed ∧ right.WellFormed

def literals : Expr → List Value
  | literal value => [value]
  | grouping inner => inner.literals
  | unary _ operand => operand.literals
  | binary left _ right => left.literals ++ right.literals

def Canonical (e : Expr) : Prop :=
  e.WellFormed ∧ ∀ value ∈ e.literals, value.Writable

end Expr
end Reckoner
