import Reckoner.Token

/-!
Expression trees, the levels of their binary operators, and their texts: one with every node in
brackets and its operator in front, and one that can be read as source again. Parentheses are kept
as nodes, and operators as the tokens that spell them.
-/
namespace Reckoner

inductive Expr where
  | literal (value : Value)
  | grouping (inner : Expr)
  | unary (operator : Token) (operand : Expr)
  | binary (left : Expr) (operator : Token) (right : Expr)
deriving DecidableEq

namespace Expr

/-- Equality of trees: operators are equal as tokens, literals as values of the language. -/
def equals : Expr → Expr → Bool
  | literal v, literal w => v.equals w
  | grouping a, grouping b => a.equals b
  | unary p a, unary q b => p.equals q && a.equals b
  | binary a p b, binary c q d => a.equals c && p.equals q && b.equals d
  | _, _ => false

def bracketed : Expr → String
  | literal value => value.text
  | grouping inner => "(group " ++ inner.bracketed ++ ")"
  | unary operator operand => "(" ++ operator.lexeme ++ " " ++ operand.bracketed ++ ")"
  | binary left operator right =>
    "(" ++ operator.lexeme ++ " " ++ left.bracketed ++ " " ++ right.bracketed ++ ")"

def literalSource : Value → String
  | .str s => "\"" ++ s ++ "\""
  | value => value.text

/-- Source text, with parentheses where the tree has groupings and nowhere else. -/
def source : Expr → String
  | literal value => literalSource value
  | grouping inner => "(" ++ inner.source ++ ")"
  | unary operator operand => operator.lexeme ++ operand.source
  | binary left operator right => left.source ++ " " ++ operator.lexeme ++ " " ++ right.source

end Expr

inductive Level where
  | equality
  | comparison
  | term
  | factor
deriving DecidableEq, Repr

def Level.rank : Level → Nat
  | equality => 0
  | comparison => 1
  | term => 2
  | factor => 3

namespace Kind

def level? : Kind → Option Level
  | bangEqual | equalEqual => some .equality
  | greater | greaterEqual | less | lessEqual => some .comparison
  | minus | plus => some .term
  | slash | star => some .factor
  | _ => none

def isUnary : Kind → Bool
  | bang | minus => true
  | _ => false

end Kind
end Reckoner
