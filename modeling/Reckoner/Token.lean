import Reckoner.Number
import Reckoner.Source

/-!
Values and tokens. Two equalities of values are kept apart: `=` tells numbers apart bit for bit, and
`Value.equals` is the equality of the language, by which a NaN differs from itself and the two
zeros are equal.
-/
namespace Reckoner

inductive Value where
  | nil
  | bool (b : Bool)
  | number (x : Float)
  | str (s : String)
deriving DecidableEq

namespace Value

def truthy : Value → Bool
  | nil => false
  | bool b => b
  | number _ | str _ => true

def equals : Value → Value → Bool
  | nil, nil => true
  | bool a, bool b => a == b
  | number x, number y => x == y
  | str s, str t => s == t
  | _, _ => false

def text : Value → String
  | nil => "nil"
  | bool true => "true"
  | bool false => "false"
  | number x => Number.text x
  | str s => s

end Value

inductive Keyword where
  | and_ | class_ | else_ | false_ | fun_ | for_ | if_ | nil_
  | or_ | print_ | return_ | super_ | this_ | true_ | var_ | while_
deriving DecidableEq, Repr

namespace Keyword

def spelling : Keyword → String
  | and_ => "and"
  | class_ => "class"
  | else_ => "else"
  | false_ => "false"
  | fun_ => "fun"
  | for_ => "for"
  | if_ => "if"
  | nil_ => "nil"
  | or_ => "or"
  | print_ => "print"
  | return_ => "return"
  | super_ => "super"
  | this_ => "this"
  | true_ => "true"
  | var_ => "var"
  | while_ => "while"

def all : List Keyword :=
  [and_, class_, else_, false_, fun_, for_, if_, nil_,
    or_, print_, return_, super_, this_, true_, var_, while_]

def ofSpelling? (word : String) : Option Keyword :=
  all.find? (·.spelling == word)

theorem ofSpelling?_spelling (k : Keyword) : ofSpelling? k.spelling = some k := by
  cases k <;> decide

theorem ofSpelling?_eq_some_iff {word : String} {k : Keyword} :
    ofSpelling? word = some k ↔ word = k.spelling := by
  constructor
  · intro h
    have := List.find?_some h
    exact (beq_iff_eq.1 this).symm
  · rintro rfl
    exact ofSpelling?_spelling k

end Keyword

inductive Kind where
  | leftParen | rightParen | leftBrace | rightBrace
  | comma | dot | minus | plus | semicolon | slash | star
  | bang | bangEqual | equal | equalEqual
  | greater | greaterEqual | less | lessEqual
  | identifier | string | number
  | keyword (word : Keyword)
  | eof
deriving DecidableEq, Repr

namespace Kind

/-- The name in a listing; a reserved word is named by its capitals. -/
def name : Kind → String
  | leftParen => "LEFT_PAREN"
  | rightParen => "RIGHT_PAREN"
  | leftBrace => "LEFT_BRACE"
  | rightBrace => "RIGHT_BRACE"
  | comma => "COMMA"
  | dot => "DOT"
  | minus => "MINUS"
  | plus => "PLUS"
  | semicolon => "SEMICOLON"
  | slash => "SLASH"
  | star => "STAR"
  | bang => "BANG"
  | bangEqual => "BANG_EQUAL"
  | equal => "EQUAL"
  | equalEqual => "EQUAL_EQUAL"
  | greater => "GREATER"
  | greaterEqual => "GREATER_EQUAL"
  | less => "LESS"
  | lessEqual => "LESS_EQUAL"
  | identifier => "IDENTIFIER"
  | string => "STRING"
  | number => "NUMBER"
  | keyword word => word.spelling.toUpper
  | eof => "EOF"

/-- None for the end, and for kinds whose tokens differ in their text. -/
def spelling? : Kind → Option String
  | leftParen => some "("
  | rightParen => some ")"
  | leftBrace => some "\x7b"
  | rightBrace => some "\x7d"
  | comma => some ","
  | dot => some "."
  | minus => some "-"
  | plus => some "+"
  | semicolon => some ";"
  | slash => some "/"
  | star => some "*"
  | bang => some "!"
  | bangEqual => some "!="
  | equal => some "="
  | equalEqual => some "=="
  | greater => some ">"
  | greaterEqual => some ">="
  | less => some "<"
  | lessEqual => some "<="
  | keyword word => some word.spelling
  | identifier | string | number | eof => none

def ofChar? : Char → Option Kind
  | '(' => some leftParen
  | ')' => some rightParen
  | '{' => some leftBrace
  | '}' => some rightBrace
  | ',' => some comma
  | '.' => some dot
  | '-' => some minus
  | '+' => some plus
  | ';' => some semicolon
  | '/' => some slash
  | '*' => some star
  | '!' => some bang
  | '=' => some equal
  | '<' => some less
  | '>' => some greater
  | _ => none

def ofPair? : Char → Char → Option Kind
  | '!', '=' => some bangEqual
  | '=', '=' => some equalEqual
  | '<', '=' => some lessEqual
  | '>', '=' => some greaterEqual
  | _, _ => none

end Kind

structure Token where
  kind : Kind
  lexeme : String
  literal : Option Value
  line : Nat
  span : Span
deriving DecidableEq

namespace Token

def literalEquals : Option Value → Option Value → Bool
  | none, none => true
  | some v, some w => v.equals w
  | _, _ => false

def equals (a b : Token) : Bool :=
  a.kind == b.kind && a.lexeme == b.lexeme && literalEquals a.literal b.literal
    && a.line == b.line && a.span == b.span

def literalText : Option Value → String
  | none => "null"
  | some v => v.text

def text (t : Token) : String :=
  s!"{t.kind.name} {t.lexeme} {literalText t.literal}"

end Token
end Reckoner
