/-!
Command-line arguments. They are read from left to right, and the first that settles the outcome
ends the reading: a request for help or the version, or a fault.
-/
namespace Reckoner

structure Options where
  tokens : Bool
  ast : Bool
  pretty : Bool
  script : Option String
deriving DecidableEq, Repr

/-- A flag that is either on or off; each may be given once. -/
inductive Switch where
  | tokens
  | ast
  | pretty
deriving DecidableEq, Repr

inductive UsageError where
  | unknownFlag (flag : String)
  | unexpectedValue (flag : String)
  | repeatedFlag (switch : Switch)
  | extraScript (script : String)
  | emptyScript
  | tokensWithAst
deriving DecidableEq, Repr

inductive Request where
  | help
  | version
  | evaluate (options : Options)
deriving DecidableEq, Repr

inductive Flag where
  | switch (switch : Switch)
  | help
  | version
deriving DecidableEq, Repr

namespace Flag

def ofShort? : Char → Option Flag
  | 't' => some (switch .tokens)
  | 'a' => some (switch .ast)
  | 'p' => some (switch .pretty)
  | 'h' => some help
  | 'V' => some version
  | _ => none

def ofLong? : String → Option Flag
  | "tokens" => some (switch .tokens)
  | "ast" => some (switch .ast)
  | "pretty" => some (switch .pretty)
  | "help" => some help
  | "version" => some version
  | _ => none

end Flag

namespace Switch

def isOn : Switch → Options → Bool
  | tokens, options => options.tokens
  | ast, options => options.ast
  | pretty, options => options.pretty

def turnOn : Switch → Options → Options
  | tokens, options => { options with tokens := true }
  | ast, options => { options with ast := true }
  | pretty, options => { options with pretty := true }

end Switch

namespace Options

def initial : Options :=
  ⟨false, false, false, none⟩

/-- What ends the reading early is an error here: a usage error, or a request other than to
evaluate. -/
abbrev Attempt (α : Type) := Except (Except UsageError Request) α

def fail {α : Type} (e : UsageError) : Attempt α :=
  .error (.error e)

def apply (options : Options) : Flag → Attempt Options
  | .help => .error (.ok .help)
  | .version => .error (.ok .version)
  | .switch s => if s.isOn options then fail (.repeatedFlag s) else .ok (s.turnOn options)

def applyShort (options : Options) (c : Char) : Attempt Options :=
  match Flag.ofShort? c with
  | some flag => options.apply flag
  | none => fail (.unknownFlag ("-" ++ c.toString))

def applyLong (options : Options) (text : List Char) : Attempt Options :=
  let name := String.ofList (text.takeWhile (· != '='))
  match Flag.ofLong? name with
  | none => fail (.unknownFlag ("--" ++ name))
  | some flag =>
    if text.contains '=' then fail (.unexpectedValue ("--" ++ name)) else options.apply flag

def setScript (options : Options) (script : String) : Attempt Options :=
  match options.script with
  | some _ => fail (.extraScript script)
  | none =>
    if script.isEmpty then fail .emptyScript else .ok { options with script := some script }

def readScripts (options : Options) (arguments : List String) : Attempt Options :=
  arguments.foldlM setScript options

def read (options : Options) : List String → Attempt Options
  | [] => .ok options
  | argument :: arguments =>
    match argument.toList with
    | ['-', '-'] => options.readScripts arguments
    | '-' :: '-' :: text => do (← options.applyLong text).read arguments
    | '-' :: c :: text => do (← (c :: text).foldlM applyShort options).read arguments
    | _ => do (← options.setScript argument).read arguments

def parse (arguments : List String) : Except UsageError Request :=
  match initial.read arguments with
  | .error outcome => outcome
  | .ok options =>
    if options.tokens && options.ast then .error .tokensWithAst else .ok (.evaluate options)

end Options
end Reckoner
