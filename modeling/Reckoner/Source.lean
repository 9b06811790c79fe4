/-!
Places in a source text, and the faults that keep a text from being an expression. Offsets count
characters from zero, lines count from one, and a line ends with its newline.
-/
namespace Reckoner

/-- The characters from `start` up to, not including, `stop`. -/
structure Span where
  start : Nat
  stop : Nat
deriving DecidableEq, Repr

def Span.behind (before text : List Char) : Span :=
  ⟨before.length, before.length + text.length⟩

def lineAfter (text : List Char) : Nat :=
  1 + text.count '\n'

/-- The offsets of the newlines in a text, ascending. -/
structure LineIndex where
  newlines : Array Nat
deriving DecidableEq, Repr

def newlineOffsets (offset : Nat) : List Char → List Nat
  | [] => []
  | c :: text =>
    if c = '\n' then offset :: newlineOffsets (offset + 1) text
    else newlineOffsets (offset + 1) text

namespace LineIndex

def ofText (text : List Char) : LineIndex :=
  ⟨(newlineOffsets 0 text).toArray⟩

/-- Binary search among the `size` newlines from position `low` on, for the first that is not
before `offset`. -/
def searchFrom (index : LineIndex) (offset low size : Nat) : Nat :=
  if size = 0 then low
  else
    let half := size / 2
    if index.newlines[low + half]?.any (· < offset) then
      searchFrom index offset (low + half + 1) (size - half - 1)
    else searchFrom index offset low half
termination_by size

def lineAt (index : LineIndex) (offset : Nat) : Nat :=
  1 + index.searchFrom offset 0 index.newlines.size

end LineIndex

inductive Fault where
  | unterminatedString
  | unexpectedCharacter
  | expectedExpression
  | expectedRightParen
  | expectedEnd
deriving DecidableEq, Repr

def Fault.message : Fault → String
  | unterminatedString => "Unterminated string."
  | unexpectedCharacter => "Unexpected character."
  | expectedExpression => "Expect expression."
  | expectedRightParen => "Expect ')' after expression."
  | expectedEnd => "Expect end of expression."

/-- The location is a remark between `Error` and the colon; scanning and parsing leave it empty. -/
structure Diagnostic where
  line : Nat
  location : String
  fault : Fault
  span : Span
deriving DecidableEq, Repr

def Fault.report (fault : Fault) (line : Nat) (span : Span) : Diagnostic :=
  ⟨line, "", fault, span⟩

namespace Diagnostic

def layout (line : Nat) (location message : String) : String :=
  s!"[line {line}] Error{location}: {message}"

def text (d : Diagnostic) : String :=
  layout d.line d.location d.fault.message

end Diagnostic
end Reckoner
