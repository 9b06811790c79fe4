import Reckoner.CommandLine.Options
import Reckoner.Program

/-!
What the command line answers: a script is run once, and a prompt evaluates its input line by
line. Results go to standard output, error reports to standard error.
-/
namespace Reckoner

inductive ReadError where
  | notFound
  | notDirectory
  | isDirectory
  | notText
  | other (message : String)
deriving DecidableEq, Repr

def ReadError.message : ReadError → String
  | notFound => "No such file or directory (os error 2)"
  | notDirectory => "Not a directory (os error 20)"
  | isDirectory => "Is a directory (os error 21)"
  | notText => "stream did not contain valid UTF-8"
  | other message => message

/-- The texts that libraries make: annotated excerpts of a source text, the help page, and the
reports on wrong arguments. Nothing here depends on what they are. -/
structure Rendering where
  excerpt (source message : String) (span : Span) (label : String) : String
  help : String
  usage : UsageError → String
deriving Inhabited

structure Execution where
  stdout : String
  error : Option Error
deriving DecidableEq

structure Outcome where
  code : Nat
  stdout : String
  stderr : String
deriving DecidableEq, Repr

def Outcome.behind (outcome : Outcome) (stdout stderr : String) : Outcome :=
  ⟨outcome.code, stdout ++ outcome.stdout, stderr ++ outcome.stderr⟩

namespace CommandLine

def newline : UInt8 :=
  10

/-- The next line, with its newline, and the input behind it. There is no next line if it is
empty. -/
def readLine (input : List UInt8) : List UInt8 × List UInt8 :=
  let line := input.takeWhile (· != newline)
  match input.dropWhile (· != newline) with
  | [] => (line, [])
  | byte :: rest => (line ++ [byte], rest)

theorem readLine_append (input : List UInt8) :
    (readLine input).1 ++ (readLine input).2 = input := by
  have hinput := @List.takeWhile_append_dropWhile _ (· != newline) input
  unfold readLine
  split
  next hdrop =>
    rwa [hdrop] at hinput
  next byte rest hdrop =>
    rw [hdrop] at hinput
    simpa using hinput

theorem length_readLine_lt {input : List UInt8} (h : (readLine input).1 ≠ []) :
    (readLine input).2.length < input.length := by
  have hlength := congrArg List.length (readLine_append input)
  have hpos := List.length_pos_iff.2 h
  rw [List.length_append] at hlength
  omega

/-- `IsLines input lines`: the input is split behind every newline into these lines. The last one
may lack its newline, and none is empty. -/
inductive IsLines : List UInt8 → List (List UInt8) → Prop where
  | none : IsLines [] []
  | last {line : List UInt8} : line ≠ [] → newline ∉ line → IsLines line [line]
  | next {line rest : List UInt8} {lines : List (List UInt8)} :
      newline ∉ line → IsLines rest lines →
      IsLines (line ++ newline :: rest) ((line ++ [newline]) :: lines)

def versionLine : String :=
  "lox-expr 0.1.0\n"

def listing (tokens : List Token) : String :=
  String.join (tokens.map fun t => t.text ++ "\n")

/-- Prints the tokens, the tree or the value of a source text. With `tokens` the text is only
scanned, and its tokens are printed even if there are lexical faults. -/
def execute (options : Options) (source : String) : Execution :=
  let scanned := scan source
  let listed := if options.tokens then listing scanned.tokens else ""
  if !scanned.diagnostics.isEmpty then ⟨listed, some (.illFormed scanned.diagnostics)⟩
  else if options.tokens then ⟨listed, none⟩
  else
    match Program.ofTokens scanned.tokens with
    | .error e => ⟨"", some e⟩
    | .ok tree =>
      if options.ast then ⟨tree.bracketed ++ "\n", none⟩
      else
        match Program.eval tree with
        | .error e => ⟨"", some e⟩
        | .ok value => ⟨value.text ++ "\n", none⟩

def statusAfter (status : Status) (execution : Execution) : Status :=
  match execution.error with
  | some error => status.record error
  | none => status

def decode (bytes : ByteArray) : Except ReadError String :=
  match String.fromUTF8? bytes with
  | some text => .ok text
  | none => .error .notText

def promptMark : String :=
  "> "

inductive PromptStep where
  | stop (outcome : Outcome)
  | next (status : Status) (stdout stderr : String)
deriving DecidableEq, Repr

section
variable (rendering : Rendering) (options : Options)

def reportDiagnostic (source : String) (d : Diagnostic) : String :=
  if options.pretty then rendering.excerpt source d.fault.message d.span s!"line {d.line}"
  else d.text ++ "\n"

def reportRuntimeError (source : String) (e : RuntimeError) : String :=
  if options.pretty then
    rendering.excerpt source e.message e.token.span s!"operator '{e.token.lexeme}'"
  else e.text ++ "\n"

def report (source : String) : Error → String
  | .illFormed diagnostics =>
    String.join (diagnostics.map (reportDiagnostic rendering options source))
  | .runtime error => reportRuntimeError rendering options source error

def reportOf (source : String) (execution : Execution) : String :=
  match execution.error with
  | some error => report rendering options source error
  | none => ""

def runScript (source : String) : Outcome :=
  let execution := execute options source
  ⟨(statusAfter .initial execution).exitCode, execution.stdout,
    reportOf rendering options source execution⟩

def script (path : String) (contents : Except ReadError ByteArray) : Outcome :=
  match contents.bind decode with
  | .ok source => runScript rendering options source
  | .error e => ⟨66, "", s!"Failed to read '{path}': {e.message}\n"⟩

/-- Runs a line with its newline. A prompt ends where no line is left, or at one that is not text;
no other line ends it, and a line that is ill-formed does not count against the next one. -/
def promptStep (status : Status) (line : List UInt8) : PromptStep :=
  if line.isEmpty then .stop ⟨0, "\n", ""⟩
  else
    match decode ⟨line.toArray⟩ with
    | .error e => .stop ⟨1, "", e.message ++ "\n"⟩
    | .ok source =>
      let execution := execute options source
      .next (statusAfter status execution).nextLine execution.stdout
        (reportOf rendering options source execution)

variable {rendering options} in
theorem length_unread_lt {status status' : Status} {input : List UInt8} {stdout stderr : String}
    (h : promptStep rendering options status (readLine input).1 = .next status' stdout stderr) :
    (readLine input).2.length < input.length := by
  apply length_readLine_lt
  intro hnil
  rw [hnil] at h
  cases h

def promptFrom (status : Status) (input : List UInt8) : Outcome :=
  match h : promptStep rendering options status (readLine input).1 with
  | .stop outcome => outcome.behind promptMark ""
  | .next status' stdout stderr =>
    have := length_unread_lt h
    (promptFrom status' (readLine input).2).behind (promptMark ++ stdout) stderr
termination_by input.length

def prompt (input : List UInt8) : Outcome :=
  promptFrom rendering options .initial input

end

def respond (rendering : Rendering) (arguments : List String)
    (read : String → Except ReadError ByteArray) (input : List UInt8) : Outcome :=
  match Options.parse arguments with
  | .error e => ⟨2, "", rendering.usage e⟩
  | .ok .help => ⟨0, rendering.help, ""⟩
  | .ok .version => ⟨0, versionLine, ""⟩
  | .ok (.evaluate options) =>
    match options.script with
    | some path => script rendering options path (read path)
    | none => prompt rendering options input

inductive Mode where
  | value
  | tree
  | tokens
deriving DecidableEq, Repr

namespace Mode

def flags : Mode → List String
  | value => []
  | tree => ["--ast"]
  | tokens => ["--tokens"]

def options (mode : Mode) (script : Option String) : Options :=
  ⟨mode = tokens, mode = tree, false, script⟩

def prompt (rendering : Rendering) (mode : Mode) (input : List UInt8) : Outcome :=
  respond rendering mode.flags (fun _ => .error .notFound) input

/-- Behind two dashes the path may start with a dash too. -/
def script (rendering : Rendering) (mode : Mode) (path : String) (contents : ByteArray) :
    Outcome :=
  respond rendering (mode.flags ++ ["--", path]) (fun _ => .ok contents) []

theorem parse_flags (mode : Mode) :
    Options.parse mode.flags = .ok (.evaluate (mode.options none)) := by
  cases mode <;> rfl

theorem parse_flags_append (mode : Mode) {path : String} (h : path ≠ "") :
    Options.parse (mode.flags ++ ["--", path]) = .ok (.evaluate (mode.options (some path))) := by
  have hread : Options.initial.read (mode.flags ++ ["--", path]) =
      (mode.options none).readScripts [path] := by
    cases mode <;> rfl
  have hpath : (mode.options none).readScripts [path] = .ok (mode.options (some path)) := by
    simp [Options.readScripts, Options.setScript, options, h]
  rw [Options.parse, hread, hpath]
  cases mode <;> rfl

end Mode
end CommandLine
end Reckoner
