import Lox.CommandLine.Options
import Lox.Prompt
import Lox.Text.Utf8

/-! What the program does for its command line: which text it runs, what that writes, and the exit code. -/

namespace Lox

inductive ExitCode where
  | ok
  | badOption
  | badFile
  | badSource
  | failed

def ExitCode.toNat : ExitCode → Nat
  | ok => 0
  | badOption => 2
  | badFile => 64
  | badSource => 65
  | failed => 70

inductive FileError where
  | suffix
  | nullCharacter
  | missing (path : String)
  | unreadable (code : Nat) (reason path : String)
  | encoding (e : Text.Utf8Error)

def FileError.message : FileError → String
  | suffix => "Only .lox files are supported."
  | nullCharacter => "embedded null byte"
  | missing path => "[Errno 2] No such file or directory: " ++ Text.quoted path
  | unreadable code reason path => s!"[Errno {code}] {reason}: " ++ Text.quoted path
  | encoding e => e.message

def FileError.text (e : FileError) : String := "lox: " ++ e.message ++ "\n"

/-- The text of a file from what reading it gave. A bad name counts before anything that was read. -/
def fileText (path : String) (bytes : Except FileError (List Nat)) : Except FileError String := do
  if !path.endsWith ".lox" then throw .suffix
  if path.contains '\x00' then throw .nullCharacter
  match Text.decode (← bytes) with
  | .ok text => return String.ofList (Text.unifyNewlines text.toList)
  | .error e => throw (.encoding e)

/-- What is done with a source: its tokens are listed, its tree is, or it is run. -/
inductive Mode where
  | tokens
  | ast
  | run

/-- The end of a run from the command line. An interrupt that no rule provides for leaves no code. -/
structure Report where
  code : Except Interrupt ExitCode
  stdout : String
  stderr : String

namespace Report

def ofTokens (source : String) : Report :=
  let scan := Scan.ofText source
  { code := .ok (if scan.errors.isEmpty then .ok else .badSource)
    stdout := String.join (scan.allTokens.map fun t => t.display ++ "\n")
    stderr := Diagnostic.transcript scan.diagnostics }

def ofTree (limits : Limits) (source : String) : Report :=
  let reading := Reading.ofText limits.depth source
  let stderr := Diagnostic.transcript reading.diagnostics
  match renderProgram limits.depth reading.statements with
  | .ok text => ⟨.ok (if reading.diagnostics.isEmpty then .ok else .badSource), text ++ "\n", stderr⟩
  | .error _ => ⟨.error .tooDeep, "", stderr⟩

def ofRun (limits : Limits) (clock : Nat → Float) (source : String) : Report :=
  let reading := Reading.ofText limits.depth source
  let s := Session.fresh clock
  let reporter := s.reporter.reportAll reading.diagnostics
  if reporter.hadError then ⟨.ok .badSource, "", Diagnostic.transcript reading.diagnostics⟩
  else
    let (s, interrupt?) := Session.execute limits ⟨s.machine, reporter⟩ reading.statements
    let code := match interrupt? with
      | some i => .error i
      | none => .ok (if s.reporter.hadRuntimeError then .failed else .ok)
    ⟨code, s.machine.output, Diagnostic.transcript s.reporter.diagnostics.toList⟩

def ofSource (limits : Limits) (clock : Nat → Float) (mode : Mode) (source : String) : Report :=
  match mode with
  | .tokens => ofTokens source
  | .ast => ofTree limits source
  | .run => ofRun limits clock source

end Report

def Options.mode (o : Options) : Mode :=
  if o.tokens then .tokens else if o.ast then .ast else .run

/-- What the command line asks for. -/
inductive Command where
  | prompt (verbose : Bool)
  | help
  | refuse (e : UsageError)
  | runText (mode : Mode) (source : String)
  | runFile (mode : Mode) (path : String)

/-- Without a source there is nothing to run, and the prompt opens. -/
def Command.ofArguments (arguments : List String) : Command :=
  if arguments.isEmpty then prompt false
  else match Options.parse arguments with
    | .error e => refuse e
    | .ok none => help
    | .ok (some o) =>
      if o.repl then prompt o.verbose
      else match o.source with
        | none => prompt o.verbose
        | some source => if o.string then runText o.mode source else runFile o.mode source

end Lox
