import Lox.Session
import Lox.Text.Blank

/-! The interactive prompt. Lines are taken until their braces balance, then the source they make up is
run. The prompt is a machine fed with one entry at a time, and it writes up to its next prompt. -/

namespace Lox

/-- What comes from the keyboard. -/
inductive Entry where
  | line (text : String)
  | interrupt
  | ended

/-- What a line leads to, with the lines before it that were incomplete. -/
inductive Intake where
  | incomplete (lines : List String)
  | leave
  | source (text : String)

def isExit (line : String) : Bool :=
  let word := Text.strip line
  word == "exit" || word == "quit"

def takeLine (pending : List String) (line : String) : Intake :=
  if pending.isEmpty && isExit line then .leave
  else
    let lines := pending ++ [line]
    let source := "\n".intercalate lines
    if braceDepth source ≤ 0 then .source (Text.strip source) else .incomplete lines

def promptText (pending : List String) : String := if pending.isEmpty then ">>> " else "... "

/-- The sources read from entries, `none` for each exit, with all prompts and the entry that ended it. -/
structure Transcript where
  sources : List (Option String)
  prompts : String
  interrupted : Bool

def Transcript.ofEntries (pending : List String) : List Entry → Transcript
  | [] | .ended :: _ => ⟨[], promptText pending, false⟩
  | .interrupt :: _ => ⟨[], promptText pending, true⟩
  | .line text :: rest =>
    let (sources, pending') := match takeLine pending text with
      | .incomplete lines => ([], lines)
      | .leave => ([none], [])
      | .source source => ([some source], [])
    let later := ofEntries pending' rest
    ⟨sources ++ later.sources, promptText pending ++ later.prompts, later.interrupted⟩

/-- What is written between two entries. -/
structure Exchange where
  stdout : String
  stderr : String

structure Prompt where
  session : Session
  verbose : Bool
  pending : List String

namespace Prompt

def fresh (clock : Nat → Float) (verbose : Bool) : Prompt := ⟨.fresh clock, verbose, []⟩

def setClock (clock : Nat → Float) (p : Prompt) : Prompt :=
  { p with session := { p.session with machine := { p.session.machine with clock } } }

def greeting : Exchange := ⟨"Lox REPL. Type 'exit' or 'quit' to leave.\n" ++ promptText [], ""⟩

/-- Runs a source, or changes the mode when it names it. A run that nests too deeply leaves a note. -/
def answer (limits : Limits) (p : Prompt) (source : String) : Prompt × Exchange :=
  if source.isEmpty || source.startsWith "//" then (p, ⟨"", ""⟩)
  else if source.map Char.toLower == "verbose-mode" then
    let verbose := !p.verbose
    let word := if verbose then "ON" else "OFF"
    ({ p with verbose }, ⟨s!"[mode] >>> Verbose mode {word}\n", ""⟩)
  else
    let reported := p.session.reporter.diagnostics.size
    let (session, interrupt?) := p.session.submit limits p.verbose source
    let (output, session) := session.takeOutput
    let note := if interrupt?.isSome then "[error] >>>\n<traceback>\n\n" else ""
    ({ p with session }, ⟨output ++ note, Diagnostic.transcript (session.reporter.since reported)⟩)

/-- Takes an entry and writes up to the next prompt. No prompt follows when the session ends. -/
def feed (limits : Limits) (p : Prompt) : Entry → Option Prompt × Exchange
  | .line text =>
    match takeLine p.pending text with
    | .leave => (none, ⟨"Exiting Lox REPL.\n", ""⟩)
    | .incomplete lines => (some { p with pending := lines }, ⟨promptText lines, ""⟩)
    | .source source =>
      let (p, e) := answer limits { p with pending := [] } source
      (some p, ⟨e.stdout ++ promptText [], e.stderr⟩)
  | .interrupt | .ended => (none, ⟨"\nExiting Lox REPL.\n", ""⟩)

/-- The exchanges after the greeting, until the session or the entries end. -/
def run (limits : Limits) (p : Prompt) : List Entry → List Exchange
  | [] => [(p.feed limits .ended).2]
  | e :: es =>
    match p.feed limits e with
    | (some p, exchange) => exchange :: p.run limits es
    | (none, exchange) => [exchange]

end Prompt

end Lox
