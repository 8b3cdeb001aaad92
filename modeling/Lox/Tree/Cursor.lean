import Lox.Tree
import Lox.Diagnostic

/-! What a parser holds while it reads: the tokens it has not used and the errors it has reported. The
steps here either use up tokens from the front or leave the cursor as it is. -/

namespace Lox

inductive FunctionSort where
  | function
  | method

def FunctionSort.word : FunctionSort → String
  | function => "function"
  | method => "method"

inductive ParseProblem where
  | className
  | classBody
  | classEnd
  | functionName (sort : FunctionSort)
  | functionParen (sort : FunctionSort)
  | parameterName
  | tooManyParameters
  | parametersEnd
  | functionBody (sort : FunctionSort)
  | variableName
  | variableEnd
  | forParen
  | forCondition
  | forEnd
  | ifParen
  | ifEnd
  | printEnd
  | returnEnd
  | whileParen
  | whileEnd
  | blockEnd
  | expressionEnd
  | assignmentTarget
  | propertyName
  | tooManyArguments
  | argumentsEnd
  | groupingEnd
  | expression
  | nesting

/-- Lists of parameters or arguments this long are reported. -/
def maxArguments : Nat := 255

def ParseProblem.message : ParseProblem → String
  | className => "Expect class name."
  | classBody => "Expect '\x7b' before class body."
  | classEnd => "Expect '\x7d' after class body."
  | functionName sort => "Expect " ++ sort.word ++ " name."
  | functionParen sort => "Expect '(' after " ++ sort.word ++ " name."
  | parameterName => "Expect parameter name."
  | tooManyParameters => s!"Can't have {maxArguments} or more parameters."
  | parametersEnd => "Expect ')' after parameters."
  | functionBody sort => "Expect '\x7b' before " ++ sort.word ++ " body."
  | variableName => "Expect variable name."
  | variableEnd => "Expect ';' after variable declaration."
  | forParen => "Expect '(' after 'for'."
  | forCondition => "Expect ';' after loop condition."
  | forEnd => "Expect ')' after for clauses."
  | ifParen => "Expect '(' after 'if'."
  | ifEnd => "Expect ')' after if condition."
  | printEnd => "Expect ';' after value."
  | returnEnd => "Expect ';' after return value."
  | whileParen => "Expect '(' after 'while'."
  | whileEnd => "Expect ')' after condition."
  | blockEnd => "Expect '\x7d' after block."
  | expressionEnd => "Expect ';' after expression."
  | assignmentTarget => "Invalid assignment target."
  | propertyName => "Expect property name after '.'."
  | tooManyArguments => s!"Can't have {maxArguments} or more arguments."
  | argumentsEnd => "Expect ')' after arguments."
  | groupingEnd => "Expect ')' after expression."
  | expression => "Expect expression."
  | nesting => "Too much nesting."

/-- `place` begins with the token the error is reported at. It is empty at the end of the tokens. -/
structure ParseError where
  place : List Token
  problem : ParseProblem

def ParseError.diagnostic (lastLine : Int) (e : ParseError) : Diagnostic :=
  .atToken (e.place.headD (Token.ending lastLine)) e.problem.message

structure Cursor where
  rest : List Token
  errors : Array ParseError

/-- Why a parser gives up: over an error it has reported, or because it is nested too deeply. -/
inductive Halt where
  | malformed
  | tooDeep
  deriving DecidableEq

abbrev Parser := EStateM Halt Cursor

namespace Parser

def place : Parser (List Token) := fun s => .ok s.rest s

def nextIs (kind : TokenKind) : Parser Bool := fun s => .ok (s.rest.head?.any (·.kind = kind)) s

def atEnd : Parser Bool := fun s => .ok s.rest.isEmpty s

def report (place : List Token) (problem : ParseProblem) : Parser Unit :=
  fun s => .ok () { s with errors := s.errors.push ⟨place, problem⟩ }

/-- Reports a problem at the next token and gives up. -/
def fail {α : Type} (problem : ParseProblem) : Parser α := do
  report (← place) problem
  throw .malformed

/-- Takes the next token if its kind is among `kinds`. -/
def accept (kinds : List TokenKind) : Parser (Option Token) := fun s =>
  match s.rest with
  | [] => .ok none s
  | t :: ts => if t.kind ∈ kinds then .ok (some t) { s with rest := ts } else .ok none s

def expect (kind : TokenKind) (problem : ParseProblem) : Parser Token := do
  match ← accept [kind] with
  | some t => pure t
  | none => fail problem

/-- The results of `step` up to its first `none`, and no more of them than `left` has tokens. -/
def collectWithin {α : Type} (step : Parser (Option α)) : (left : List Token) → Parser (List α)
  | [] => pure []
  | _ :: left => do
    match ← step with
    | none => pure []
    | some a => return a :: (← collectWithin step left)

/-- The results of `step` up to its first `none`. A step with a result takes at least one token, so the
tokens left after the first bound the number of further ones. -/
def collect {α : Type} (step : Parser (Option α)) : Parser (List α) := do
  match ← step with
  | none => pure []
  | some a => return a :: (← collectWithin step (← place))

/-- Drops tokens up to the first that starts a statement or follows a semicolon. -/
def resumeAfter (last : Token) : List Token → List Token
  | [] => []
  | t :: ts => if last.kind = .semicolon || t.kind.startsStatement then t :: ts else resumeAfter t ts

/-- Drops the token an error was found at, and what follows up to a statement boundary. -/
def resume : List Token → List Token
  | [] => []
  | t :: ts => resumeAfter t ts

theorem resumeAfter_suffix (last : Token) (ts : List Token) : resumeAfter last ts <:+ ts := by
  induction ts generalizing last with
  | nil => exact List.suffix_rfl
  | cons t ts ih =>
    unfold resumeAfter
    split
    · exact List.suffix_rfl
    · exact (ih t).trans (List.suffix_cons t ts)

theorem resume_suffix (ts : List Token) : resume ts <:+ ts.tail := by
  cases ts with
  | nil => exact List.suffix_rfl
  | cons t ts => exact resumeAfter_suffix t ts

/-- Gives no result for malformed input, and takes up again at the next statement boundary. -/
def recovering {α : Type} (p : Parser α) : Parser (Option α) := fun s =>
  match p s with
  | .ok a s => .ok (some a) s
  | .error .malformed s => .ok none { s with rest := resume s.rest }
  | .error .tooDeep s => .error .tooDeep s

/-- Gives no result for input that is nested too deeply, reports it at the next token, and takes up
again at the next statement boundary. -/
def limiting {α : Type} (p : Parser (Option α)) : Parser (Option α) := fun s =>
  match p s with
  | .error .tooDeep s => .ok none ⟨resume s.rest, s.errors.push ⟨s.rest, .nesting⟩⟩
  | result => result

end Parser

end Lox
