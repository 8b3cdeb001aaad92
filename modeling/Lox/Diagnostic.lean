import Lox.Token

/-! Diagnostics, and the reporter that collects them. A diagnostic about the source forbids running it,
one about a run ends that run. -/

namespace Lox

inductive Diagnostic where
  | source (line : Int) (place : String) (message : String)
  | runtime (line : Int) (message : String)

/-- Where in its line a token stands, as diagnostics say it. -/
def Token.place (t : Token) : String := if t.kind = .eof then " at end" else s!" at '{t.lexeme}'"

namespace Diagnostic

def atToken (t : Token) (message : String) : Diagnostic := source t.line t.place message

def text : Diagnostic → String
  | source line place message => s!"[line {line}] Error{place}: {message}"
  | runtime line message => s!"{message}\n[line {line}]"

def isRuntime : Diagnostic → Bool
  | source .. => false
  | runtime .. => true

end Diagnostic

structure Reporter where
  diagnostics : Array Diagnostic
  hadError : Bool
  hadRuntimeError : Bool

namespace Reporter

def fresh : Reporter := ⟨#[], false, false⟩

def report (r : Reporter) (d : Diagnostic) : Reporter where
  diagnostics := r.diagnostics.push d
  hadError := r.hadError || !d.isRuntime
  hadRuntimeError := r.hadRuntimeError || d.isRuntime

def reportAll (r : Reporter) (ds : List Diagnostic) : Reporter := ds.foldl report r

/-- Lowers both flags. The diagnostics stay. -/
def reset (r : Reporter) : Reporter := { r with hadError := false, hadRuntimeError := false }

theorem diagnostics_reportAll (r : Reporter) (ds : List Diagnostic) :
    (r.reportAll ds).diagnostics = r.diagnostics ++ ds := by
  induction ds generalizing r with
  | nil => simp [reportAll]
  | cons d ds ih =>
    have := ih (r.report d)
    simp only [reportAll, List.foldl_cons] at this ⊢
    rw [this]
    simp [report]

/-- What was reported after the first `n` diagnostics. -/
def since (r : Reporter) (n : Nat) : List Diagnostic := r.diagnostics.toList.drop n

end Reporter

/-- Diagnostics as they are written, one after the other. -/
def Diagnostic.transcript (ds : List Diagnostic) : String := String.join (ds.map fun d => d.text ++ "\n")

end Lox
