import Reckoner.Expr.Eval
import Reckoner.Expr.Parser
import Reckoner.Token.Scan

/-!
Programs: one expression, given as source text. All lexical faults are reported together, and a
text with any is not parsed; a text that does not parse has one fault. A session remembers of them
what its exit code needs.
-/
namespace Reckoner

inductive Error where
  | illFormed (diagnostics : List Diagnostic)
  | runtime (error : RuntimeError)
deriving DecidableEq

def Error.text : Error → String
  | illFormed diagnostics => "\n".intercalate (diagnostics.map Diagnostic.text)
  | runtime error => error.text

namespace Program

def ofTokens (tokens : List Token) : Except Error Expr :=
  (Expr.parse tokens).mapError fun diagnostic => .illFormed [diagnostic]

def parse (source : String) : Except Error Expr :=
  match scan source with
  | ⟨tokens, []⟩ => ofTokens tokens
  | ⟨_, diagnostics⟩ => .error (.illFormed diagnostics)

def eval (tree : Expr) : Except Error Value :=
  tree.eval.mapError .runtime

def run (source : String) : Except Error Value := do
  let tree ← parse source
  eval tree

end Program

structure Status where
  hadError : Bool
  hadRuntimeError : Bool
deriving DecidableEq, Repr

namespace Status

def initial : Status :=
  ⟨false, false⟩

def record (status : Status) : Error → Status
  | .illFormed _ => { status with hadError := true }
  | .runtime _ => { status with hadRuntimeError := true }

/-- A bad line of a prompt does not count against the next one. -/
def nextLine (status : Status) : Status :=
  { status with hadError := false }

def exitCode (status : Status) : Nat :=
  if status.hadError then 65
  else if status.hadRuntimeError then 70
  else 0

end Status

inductive SessionStep where
  | run (source : String)
  | nextLine
deriving DecidableEq, Repr

namespace Status

def after (status : Status) : Except Error Value → Status
  | .ok _ => status
  | .error e => status.record e

def step (status : Status) : SessionStep → Status
  | .run source => status.after (Program.run source)
  | .nextLine => status.nextLine

def steps (status : Status) (history : List SessionStep) : Status :=
  history.foldl step status

end Status
end Reckoner
