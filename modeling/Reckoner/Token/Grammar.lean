import Reckoner.Token.Scan

/-!
The lexical grammar: which texts are trivia and which are the text of a token, how the longest match
cuts a text into them, and where the characters of a scanned text are left.
-/
namespace Reckoner

/-- Blanks and line comments in any order. A comment is closed by a newline, but for the last one
where the text ends. -/
inductive IsTrivia (final : Bool) : List Char → Prop where
  | nil : IsTrivia final []
  | blank {c : Char} {text : List Char} :
      c ∈ [' ', '\t', '\r', '\n'] → IsTrivia final text → IsTrivia final (c :: text)
  | comment {body text : List Char} :
      '\n' ∉ body → IsTrivia final text →
      IsTrivia final ('/' :: '/' :: body ++ '\n' :: text)
  | lastComment {body : List Char} :
      final = true → '\n' ∉ body → IsTrivia final ('/' :: '/' :: body)

def IsDigits (text : List Char) : Prop :=
  text ≠ [] ∧ ∀ c ∈ text, c.isDigit

def IsLetter (c : Char) : Prop :=
  'a' ≤ c ∧ c ≤ 'z' ∨ 'A' ≤ c ∧ c ≤ 'Z' ∨ c = '_'

def IsWord (text : List Char) : Prop :=
  ∃ c letters, text = c :: letters ∧ IsLetter c ∧ ∀ d ∈ letters, IsLetter d ∨ d.isDigit

def reservedWords : List (String × Keyword) :=
  [("and", .and_), ("class", .class_), ("else", .else_), ("false", .false_), ("for", .for_),
    ("fun", .fun_), ("if", .if_), ("nil", .nil_), ("or", .or_), ("print", .print_),
    ("return", .return_), ("super", .super_), ("this", .this_), ("true", .true_), ("var", .var_),
    ("while", .while_)]

/-- `Lexes text kind literal`: the text is that of a token with this kind and literal. -/
inductive Lexes : List Char → Kind → Option Value → Prop where
  | symbol {text : List Char} {kind : Kind} :
      kind.spelling? = some (String.ofList text) → ¬ IsWord text → Lexes text kind none
  | whole {digits : List Char} :
      IsDigits digits →
      Lexes digits .number (some (.number (Number.ofDecimal (.ofDigits digits []))))
  | decimal {digits fraction : List Char} :
      IsDigits digits → IsDigits fraction →
      Lexes (digits ++ '.' :: fraction) .number
        (some (.number (Number.ofDecimal (.ofDigits digits fraction))))
  | string {body : List Char} :
      '"' ∉ body → Lexes ('"' :: body ++ ['"']) .string (some (.str (String.ofList body)))
  | keyword {word : String} {keyword : Keyword} :
      (word, keyword) ∈ reservedWords → Lexes word.toList (.keyword keyword) none
  | identifier {text : List Char} :
      IsWord text → (∀ reserved ∈ reservedWords, text ≠ reserved.1.toList) →
      Lexes text .identifier none

def IsLongest (lexeme text : List Char) : Prop :=
  lexeme <+: text ∧
    ∀ longer kind literal, longer <+: text → Lexes longer kind literal →
      longer.length ≤ lexeme.length

def IsMaximalTrivia (trivia rest : List Char) : Prop :=
  IsTrivia rest.isEmpty trivia ∧
    ∀ more rest', more ++ rest' = rest → IsTrivia rest'.isEmpty (trivia ++ more) → more = []

/-- `Takes lexeme reading rest`: where no trivia comes first, `lexeme` is taken off the front of
`lexeme ++ rest`. A quote opens a string, which the next quote closes; without one the whole text is
a fault. Everything else is cut by the longest match, and a character that starts no token is a
fault by itself. -/
inductive Takes : List Char → Reading → List Char → Prop where
  | string {body rest : List Char} :
      '"' ∉ body →
      Takes ('"' :: body ++ ['"']) (.token .string (some (.str (String.ofList body)))) rest
  | unterminated {body : List Char} :
      '"' ∉ body → Takes ('"' :: body) (.fault .unterminatedString) []
  | token {lexeme rest : List Char} {kind : Kind} {literal : Option Value} :
      lexeme.head? ≠ some '"' → Lexes lexeme kind literal → IsLongest lexeme (lexeme ++ rest) →
      Takes lexeme (.token kind literal) rest
  | unexpected {c : Char} {rest : List Char} :
      c ≠ '"' → (∀ lexeme kind literal, lexeme <+: c :: rest → ¬ Lexes lexeme kind literal) →
      Takes [c] (.fault .unexpectedCharacter) rest

/-- `Tokenises before text tokens diagnostics`: these are the tokens, with the end token as the last
one, and the diagnostics of a text that stands behind `before`. A token is on the line where it
ends, and a fault on the line where it starts. -/
inductive Tokenises : List Char → List Char → List Token → List Diagnostic → Prop where
  | done {before trivia : List Char} :
      IsTrivia true trivia →
      Tokenises before trivia
        [⟨.eof, "", none, lineAfter (before ++ trivia), .behind (before ++ trivia) []⟩] []
  | token {before trivia lexeme rest : List Char} {kind : Kind} {literal : Option Value}
      {tokens : List Token} {diagnostics : List Diagnostic} :
      IsMaximalTrivia trivia (lexeme ++ rest) → Takes lexeme (.token kind literal) rest →
      Tokenises (before ++ trivia ++ lexeme) rest tokens diagnostics →
      Tokenises before (trivia ++ (lexeme ++ rest))
        (⟨kind, String.ofList lexeme, literal, lineAfter (before ++ trivia ++ lexeme),
          .behind (before ++ trivia) lexeme⟩ :: tokens)
        diagnostics
  | fault {before trivia lexeme rest : List Char} {fault : Fault}
      {tokens : List Token} {diagnostics : List Diagnostic} :
      IsMaximalTrivia trivia (lexeme ++ rest) → Takes lexeme (.fault fault) rest →
      Tokenises (before ++ trivia ++ lexeme) rest tokens diagnostics →
      Tokenises before (trivia ++ (lexeme ++ rest)) tokens
        (⟨lineAfter (before ++ trivia), "", fault, .behind (before ++ trivia) lexeme⟩
          :: diagnostics)

def Span.slice (span : Span) (text : List Char) : List Char :=
  text.extract span.start span.stop

def Span.Precedes (s t : Span) : Prop :=
  s.start < t.start ∧ s.stop ≤ t.start

inductive Finding where
  | token (t : Token)
  | diagnostic (d : Diagnostic)
deriving DecidableEq

namespace Finding

def span : Finding → Span
  | token t => t.span
  | diagnostic d => d.span

def token? : Finding → Option Token
  | token t => some t
  | diagnostic _ => none

def diagnostic? : Finding → Option Diagnostic
  | token _ => none
  | diagnostic d => some d

theorem token?_eq_some {f : Finding} {t : Token} : f.token? = some t ↔ f = token t := by
  cases f <;> simp [token?]

theorem diagnostic?_eq_some {f : Finding} {d : Diagnostic} :
    f.diagnostic? = some d ↔ f = diagnostic d := by
  cases f <;> simp [diagnostic?]

def spelling (text : List Char) : Finding → List Char
  | token t => t.lexeme.toList
  | diagnostic d => d.span.slice text

def gaps (start stop : Nat) : List Finding → List Span
  | [] => [⟨start, stop⟩]
  | f :: found => ⟨start, f.span.start⟩ :: gaps f.span.stop stop found

def interleave (text : List Char) (start : Nat) : List Finding → List Char
  | [] => Span.slice ⟨start, text.length⟩ text
  | f :: found =>
    Span.slice ⟨start, f.span.start⟩ text ++ (f.spelling text ++ interleave text f.span.stop found)

end Finding

/-- A scan accounts for every character of a text. Its tokens and its diagnostics together are
`found`, in the order of the text. -/
structure Scan.Covers (scan : Scan) (text : List Char) (found : List Finding) : Prop where
  /-- The last token is the end token, which is empty. -/
  tokens_eq : ∃ line, scan.tokens =
    found.filterMap Finding.token? ++ [⟨.eof, "", none, line, ⟨text.length, text.length⟩⟩]
  kind_ne_eof : ∀ t, .token t ∈ found → t.kind ≠ .eof
  diagnostics_eq : scan.diagnostics = found.filterMap Finding.diagnostic?
  nonempty : ∀ f ∈ found, f.span.start < f.span.stop
  inBounds : ∀ f ∈ found, f.span.stop ≤ text.length
  ascend : found.Pairwise fun f g => f.span.Precedes g.span
  tokens_ascend : scan.tokens.Pairwise fun t u => t.span.Precedes u.span
  diagnostics_ascend : scan.diagnostics.Pairwise fun d e => d.span.Precedes e.span
  lexeme_eq : ∀ t ∈ scan.tokens, t.lexeme.toList = t.span.slice text
  /-- A comment may run up to the end of the last gap only. -/
  gaps_trivia : ∀ gap ∈ Finding.gaps 0 text.length found,
    gap.start ≤ gap.stop ∧ IsTrivia (gap.stop == text.length) (gap.slice text)
  interleave_eq : Finding.interleave text 0 found = text
  unterminated_last : ∀ d ∈ scan.diagnostics, d.fault = .unterminatedString →
    text[d.span.start]? = some '"' ∧ d.span.stop = text.length ∧
      found.getLast? = some (.diagnostic d)
  unterminated_once : scan.diagnostics.countP (·.fault = .unterminatedString) ≤ 1

end Reckoner
