import Reckoner.CommandLine.Session

/-!
The program: standard streams and files around the answers of `CommandLine`. Whoever starts it
brings the texts of the libraries along.
-/
namespace Reckoner.Main

def readScript (path : String) : IO (Except ReadError ByteArray) := do
  try
    return .ok (← IO.FS.readBinFile path)
  catch
    | .noFileOrDirectory .. => return .error .notFound
    | .inappropriateType _ code details =>
      return .error <| match code with
        | 20 => .notDirectory
        | 21 => .isDirectory
        | _ => .other details
    | e => return .error (.other (toString e))

def write (stdout stderr : String) : IO Unit := do
  (← IO.getStdout).putStr stdout
  (← IO.getStdout).flush
  (← IO.getStderr).putStr stderr

partial def readLine (line : ByteArray) : IO ByteArray := do
  let byte ← (← IO.getStdin).read 1
  if byte.isEmpty || byte.data == #[10] then return line ++ byte
  readLine (line ++ byte)

def finish (outcome : Outcome) : IO UInt32 := do
  write outcome.stdout outcome.stderr
  return UInt32.ofNat outcome.code

/-- A prompt answers each line before it reads the next. -/
partial def loop (rendering : Rendering) (options : Options) (status : Status) : IO UInt32 := do
  write CommandLine.promptMark ""
  let line ← readLine .empty
  match CommandLine.promptStep rendering options status line.data.toList with
  | .stop outcome => finish outcome
  | .next status stdout stderr =>
    write stdout stderr
    loop rendering options status

def run (rendering : Rendering) (arguments : List String) : IO UInt32 := do
  match Options.parse arguments with
  | .ok (.evaluate options) =>
    match options.script with
    | some path =>
      let contents ← readScript path
      finish (CommandLine.script rendering options path contents)
    | none => loop rendering options .initial
  | _ => finish (CommandLine.respond rendering arguments (fun _ => .error .notFound) [])

end Reckoner.Main
