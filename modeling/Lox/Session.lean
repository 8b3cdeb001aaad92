import Lox.Evaluation
import Lox.Tree.Parser
import Lox.Tree.Printer

/-! A session runs one source after the other on one machine with one reporter. What a rejected source
leaves behind is its diagnostics, nothing else. -/

namespace Lox

/-- A source text read: the statements that parsed, and what was wrong with the rest. -/
structure Reading where
  statements : List Stmt
  diagnostics : List Diagnostic

def Reading.ofText (depth : Nat) (source : String) : Reading :=
  let scan := Scan.ofText source
  let program := Program.ofTokens depth scan.tokens
  ⟨program.statements, scan.diagnostics ++ program.errors.map (·.diagnostic scan.lastLine)⟩

structure Session where
  machine : Machine
  reporter : Reporter

namespace Session

def fresh (clock : Nat → Float) : Session := ⟨.fresh clock, .fresh⟩

/-- Takes up the end of a run. A failure of the program is reported, any other interrupt handed on. -/
def settle {α : Type} (reporter : Reporter) :
    EStateM.Result Interrupt Machine α → Session × Option Interrupt
  | .ok _ m => (⟨m, reporter⟩, none)
  | .error (.failed e) m => (⟨m, reporter.report e.diagnostic⟩, none)
  | .error interrupt m => (⟨m, reporter⟩, some interrupt)

def execute (limits : Limits) (s : Session) (statements : List Stmt) : Session × Option Interrupt :=
  settle s.reporter (interpret limits statements s.machine)

/-- Runs what parses of a source, whatever is wrong with the rest. -/
def runAnyway (limits : Limits) (s : Session) (source : String) : Session × Option Interrupt :=
  let reading := Reading.ofText limits.depth source
  execute limits ⟨s.machine, s.reporter.reportAll reading.diagnostics⟩ reading.statements

/-- Evaluates an expression and writes its value. -/
def echo (limits : Limits) (s : Session) (e : Expr) : Session × Option Interrupt :=
  let run : Run Unit := do
    let v ← evaluate limits.rounds limits.depth e
    modify fun m => m.write (m.display v)
  settle s.reporter (run s.machine)

/-- Runs a source in which nothing is wrong. An expression statement that stands alone has its value
written. -/
def run (limits : Limits) (s : Session) (statements : List Stmt) : Session × Option Interrupt :=
  match statements with
  | [.expression e] => s.echo limits e
  | _ => s.execute limits statements

/-- Lowers the flags and reports what is wrong with a source. If that is nothing the source is run, after
its tree has been written if `verbose` asks for it. -/
def submit (limits : Limits) (verbose : Bool) (s : Session) (source : String) :
    Session × Option Interrupt :=
  let reading := Reading.ofText limits.depth source
  let s : Session := ⟨s.machine, s.reporter.reset.reportAll reading.diagnostics⟩
  if s.reporter.hadError then (s, none)
  else if verbose then
    match renderProgram limits.depth reading.statements with
    | .ok text => run limits ⟨s.machine.write ("[ast] >>> " ++ text), s.reporter⟩ reading.statements
    | .error _ => (s, some .tooDeep)
  else run limits s reading.statements

/-- What has been written since the last time, which is forgotten. -/
def takeOutput (s : Session) : String × Session :=
  (s.machine.output, { s with machine := { s.machine with output := "" } })

end Session

end Lox
