import Reckoner.Token

/-!
Scanning: a text is cut into lexemes with trivia between them. The first character of a lexeme
decides its class, and within the class the longest match is taken. Lexemes that are tokens become
the token list, which one token of kind `eof` ends; the others become diagnostics and do not stop
the scan.
-/
namespace Reckoner

namespace Trivia

def isBlank (c : Char) : Bool :=
  c == ' ' || c == '\t' || c == '\r' || c == '\n'

def startsComment (c : Char) (text : List Char) : Bool :=
  c == '/' && text.head? == some '/'

/-- Leaves out the trivia at the front of a text. A comment ends before its newline. -/
def skip (inComment : Bool) (offset : Nat) : List Char → Nat × List Char
  | [] => (offset, [])
  | c :: text =>
    if inComment then skip (c != '\n') (offset + 1) text
    else if isBlank c then skip false (offset + 1) text
    else if startsComment c text then skip true (offset + 1) text
    else (offset, c :: text)

theorem length_skip_le (inComment : Bool) (offset : Nat) (text : List Char) :
    (skip inComment offset text).2.length ≤ text.length := by
  fun_induction skip inComment offset text <;> simp_all <;> omega

end Trivia

inductive Reading where
  | token (kind : Kind) (literal : Option Value)
  | fault (fault : Fault)
deriving DecidableEq

/-- A reading and the number of characters it takes after the first. -/
structure Lexeme where
  reading : Reading
  more : Nat
deriving DecidableEq

namespace Lexeme

def startsWord (c : Char) : Bool :=
  c.isAlpha || c == '_'

def continuesWord (c : Char) : Bool :=
  c.isAlphanum || c == '_'

def word (c : Char) (text : List Char) : Lexeme :=
  let letters := text.takeWhile continuesWord
  let kind := match Keyword.ofSpelling? (String.ofList (c :: letters)) with
    | some keyword => .keyword keyword
    | none => .identifier
  ⟨.token kind none, letters.length⟩

def fraction : List Char → List Char
  | '.' :: text => text.takeWhile Char.isDigit
  | _ => []

def number (c : Char) (text : List Char) : Lexeme :=
  let whole := text.takeWhile Char.isDigit
  let fraction := fraction (text.dropWhile Char.isDigit)
  let value := Number.ofDecimal (.ofDigits (c :: whole) fraction)
  ⟨.token .number (some (.number value)),
    whole.length + if fraction.isEmpty then 0 else fraction.length + 1⟩

/-- The text after an opening quote up to the next quote, taken verbatim. Without a closing quote
the rest of the text is lost. -/
def string (text : List Char) : Lexeme :=
  let body := text.takeWhile (· != '"')
  if body.length < text.length then
    ⟨.token .string (some (.str (String.ofList body))), body.length + 1⟩
  else ⟨.fault .unterminatedString, body.length⟩

def symbol (c : Char) (text : List Char) : Lexeme :=
  match text.head?.bind (Kind.ofPair? c) with
  | some kind => ⟨.token kind none, 1⟩
  | none =>
    match Kind.ofChar? c with
    | some kind => ⟨.token kind none, 0⟩
    | none => ⟨.fault .unexpectedCharacter, 0⟩

def first (c : Char) (text : List Char) : Lexeme :=
  if c.isDigit then number c text
  else if startsWord c then word c text
  else if c == '"' then string text
  else symbol c text

end Lexeme

structure Piece where
  start : Nat
  text : List Char
  reading : Reading
deriving DecidableEq

structure Scan where
  tokens : List Token
  diagnostics : List Diagnostic
deriving DecidableEq

namespace Piece

def span (piece : Piece) : Span :=
  ⟨piece.start, piece.start + piece.text.length⟩

/-- A token stands on the line where it ends, a fault on the line where it starts. -/
def token? (lines : LineIndex) (piece : Piece) : Option Token :=
  match piece.reading with
  | .token kind literal =>
    some ⟨kind, String.ofList piece.text, literal, lines.lineAt piece.span.stop, piece.span⟩
  | .fault _ => none

def diagnostic? (lines : LineIndex) (piece : Piece) : Option Diagnostic :=
  match piece.reading with
  | .token _ _ => none
  | .fault fault => some (fault.report (lines.lineAt piece.span.start) piece.span)

end Piece

def pieces (offset : Nat) (text : List Char) : List Piece :=
  match h : Trivia.skip false offset text with
  | (_, []) => []
  | (start, c :: rest) =>
    let lexeme := Lexeme.first c rest
    ⟨start, c :: rest.take lexeme.more, lexeme.reading⟩
      :: pieces (start + lexeme.more + 1) (rest.drop lexeme.more)
termination_by text.length
decreasing_by
  have := Trivia.length_skip_le false offset text
  simp only [h, List.length_cons] at this
  simp only [List.length_drop]
  omega

def endToken (lines : LineIndex) (length : Nat) : Token :=
  ⟨.eof, "", none, lines.lineAt length, ⟨length, length⟩⟩

def scan (source : String) : Scan :=
  let text := source.toList
  let lines := LineIndex.ofText text
  let found := pieces 0 text
  ⟨found.filterMap (Piece.token? lines) ++ [endToken lines text.length],
    found.filterMap (Piece.diagnostic? lines)⟩

end Reckoner
