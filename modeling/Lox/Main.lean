import Lox.CommandLine

/-! The program: it reads files and the keyboard and writes what the library answers. -/

namespace Lox

/-- The clock of a run, in seconds. -/
def readClock : IO (Nat → Float) := do
  let seconds := (← IO.monoNanosNow).toFloat / 1000000000
  return fun _ => seconds

def Exchange.write (e : Exchange) : IO Unit := do
  IO.eprint e.stderr
  IO.print e.stdout
  (← IO.getStdout).flush

partial def Prompt.converse (p : Prompt) : IO Unit := do
  let line ← (← IO.getStdin).getLine
  let clock ← readClock
  let entry := if line.isEmpty then .ended else .line (line.dropEndWhile (· = '\n')).toString
  let (next, exchange) := (p.setClock clock).feed .standard entry
  exchange.write
  match next with
  | some p => p.converse
  | none => pure ()

def Report.write (r : Report) : IO UInt32 := do
  IO.print r.stdout
  IO.eprint r.stderr
  match r.code with
  | .ok code => return code.toNat.toUInt32
  | .error _ =>
    IO.eprintln "Too much nesting."
    return 1

/-- Why a file cannot be read, by what the system says of it. Its codes may come with a sign. -/
def FileError.ofIO (path : String) : IO.Error → FileError
  | .permissionDenied _ code reason | .inappropriateType _ code reason
  | .resourceExhausted _ code reason | .invalidArgument _ code reason =>
    .unreadable code.toInt32.toInt.natAbs reason.capitalize path
  | _ => .missing path

def readFile (path : String) : IO (Except FileError (List Nat)) := do
  try
    let bytes ← IO.FS.readBinFile path
    return .ok (bytes.toList.map UInt8.toNat)
  catch e => return .error (.ofIO path e)

def Command.run : Command → IO UInt32
  | .prompt verbose => do
    Prompt.greeting.write
    (Prompt.fresh (← readClock) verbose).converse
    return 0
  | .help => do
    IO.print helpText
    return 0
  | .refuse e => do
    IO.eprint e.text
    return ExitCode.badOption.toNat.toUInt32
  | .runText mode source => do (Report.ofSource .standard (← readClock) mode source).write
  | .runFile mode path => do
    match fileText path (← readFile path) with
    | .ok source => (Report.ofSource .standard (← readClock) mode source).write
    | .error e =>
      IO.eprint e.text
      return ExitCode.badFile.toNat.toUInt32

end Lox

def main (arguments : List String) : IO UInt32 := (Lox.Command.ofArguments arguments).run
