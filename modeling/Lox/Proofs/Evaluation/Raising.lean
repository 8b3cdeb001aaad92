import Lox.Evaluation
import Lox.Session

/-! Return by signal and return by exception. Here is the evaluator once more, except that `return` raises its
value: blocks, branches and loops know nothing of it, a block comes back to the scope around it however it is
left, a call catches what is raised inside it, and a program catches what its statements raise and goes on with
the next. It is shown to be the evaluator that hands completions on. -/

namespace Lox

/-- What is raised: an interrupt, or the value of a `return`. -/
inductive Raised where
  | interrupt (i : Interrupt)
  | returned (v : Value)

abbrev Raising := EStateM Raised Machine

namespace Raising

variable {α β : Type}

/-- A run that raises interrupts only. -/
def lift (p : Run α) : Raising α := fun m =>
  match p m with
  | .ok a m => .ok a m
  | .error i m => .error (.interrupt i) m

instance : MonadLift Run Raising := ⟨lift⟩

/-- Statements in order. -/
def sequence (execute : Stmt → Raising Unit) : List Stmt → Raising Unit
  | [] => pure ()
  | s :: ss => do
    execute s
    sequence execute ss

/-- Runs in another scope and comes back, also when something is raised. -/
def inScope (scope : ScopeId) (run : Raising α) : Raising α := fun m =>
  let outer := m.current
  match run { m with current := scope } with
  | .ok a m => .ok a { m with current := outer }
  | .error raised m => .error raised { m with current := outer }

abbrev Body := ScopeId → List Stmt → Raising Unit

def block (execute : Stmt → Raising Unit) : Body := fun scope statements =>
  inScope scope (sequence execute statements)

def loop (condition : Raising Bool) (body : Raising Unit) : (rounds : Nat) → Raising Unit
  | 0 => throw (.interrupt .unfinished)
  | rounds + 1 => do
    if ← condition then
      body
      loop condition body rounds
    else
      pure ()

/-- The value that is returned out of `p`, or else what `p` gives. -/
def catching (p : Raising α) (returned : Value → Raising α) : Raising α :=
  tryCatch p fun
    | .returned v => returned v
    | .interrupt i => throw (.interrupt i)

def callFunction (body : Body) (f : FunctionObject) (arguments : List Value) : Raising Value := do
  let scope ← Run.enter f arguments
  let v ← catching (do body scope f.declaration.body; pure .nil) pure
  if f.isInitializer then Run.readAt f.closure 0 "this" else pure v

def construct (body : Body) (cls : ClassId) (arguments : List Value) : Raising Value := do
  let object ← Run.make (·.newInstance cls)
  match (← get).findMethod? cls "init" with
  | none => pure (.instance object)
  | some f =>
    let bound ← Run.bind (← Run.functionObject f) (.instance object)
    let _ ← callFunction body bound arguments
    pure (.instance object)

def call (body : Body) (callee : Value) (arguments : List Value) : Raising Value :=
  match callee with
  | .function id => do callFunction body (← Run.functionObject id) arguments
  | .class id => construct body id arguments
  | .native id => Run.callNative id arguments
  | _ => throw (.interrupt (.stuck .danglingReference))

def limiting (paren : Token) (run : Raising α) : Raising α :=
  tryCatch run fun
    | .interrupt .tooDeep => Run.fail paren .stackOverflow
    | raised => throw raised

def checkedCall (body : Body) (paren : Token) (callee : Value) (arguments : List Value) :
    Raising Value := do
  match (← get).arity? callee with
  | none => Run.fail paren .notCallable
  | some expected =>
    if expected = arguments.length then
      limiting paren (call body callee arguments)
    else
      Run.fail paren (.wrongArity expected arguments.length)

mutual

def evaluate (rounds : Nat) : (depth : Nat) → Expr → Raising Value
  | 0, _ => throw (.interrupt .tooDeep)
  | depth + 1, e =>
    match e with
    | .literal value => pure (.ofLiteral value)
    | .grouping inner => evaluate rounds depth inner
    | .unary operator right => do
      let v ← evaluate rounds depth right
      Run.unary operator v
    | .binary left operator right => do
      let l ← evaluate rounds depth left
      match operator.kind with
      | .kwOr => if l.isTruthy then pure l else evaluate rounds depth right
      | .kwAnd => if l.isTruthy then evaluate rounds depth right else pure l
      | _ =>
        let r ← evaluate rounds depth right
        Run.binary operator l r
    | .variable name => Run.lookUp name
    | .assign name value => do
      let v ← evaluate rounds depth value
      Run.assign name v
      pure v
    | .get object name => do
      match ← evaluate rounds depth object with
      | .instance o => Run.property o name
      | _ => Run.fail name .propertyOfNonInstance
    | .set object name value => do
      match ← evaluate rounds depth object with
      | .instance o =>
        let v ← evaluate rounds depth value
        modify fun m => m.setField o name.lexeme v
        pure v
      | _ => Run.fail name .fieldOfNonInstance
    | .call callee paren arguments => do
      let f ← evaluate rounds depth callee
      let vs ← arguments.mapM (evaluate rounds depth)
      checkedCall (block (execute rounds depth)) paren f vs
    | .this keyword => Run.lookUp keyword
    | .misplaced statement => throw (.interrupt (.stuck (.expression statement.kind)))
    | .unknown kind => throw (.interrupt (.stuck (.expression kind)))

def execute (rounds : Nat) : (depth : Nat) → Stmt → Raising Unit
  | 0, _ => throw (.interrupt .tooDeep)
  | depth + 1, s =>
    match s with
    | .expression inner => do
      let _ ← evaluate rounds depth inner
    | .print inner => do
      let v ← evaluate rounds depth inner
      modify fun m => m.write (m.display v)
    | .var name initializer => do
      let v ← match initializer with
        | some e => evaluate rounds depth e
        | none => pure .nil
      Run.define name v
    | .block statements => do
      let scope ← Run.make fun m => m.newScope m.current
      block (execute rounds depth) scope statements
    | .branch condition whenTrue whenFalse => do
      let v ← evaluate rounds depth condition
      if v.isTruthy then execute rounds depth whenTrue
      else match whenFalse with
        | some s => execute rounds depth s
        | none => pure ()
    | .while condition body =>
      loop (Value.isTruthy <$> evaluate rounds depth condition) (execute rounds depth body) rounds
    | .function name params body => do
      let f ← Run.closure ⟨name, params, body⟩ false
      Run.define name (.function f)
    | .return _ value => do
      let v ← match value with
        | some e => evaluate rounds depth e
        | none => pure .nil
      throw (.returned v)
    | .class name methods => Run.declareClass name methods
    | .misplaced inner => throw (.interrupt (.stuck (.statement inner.kind)))
    | .unknown kind => throw (.interrupt (.stuck (.statement kind)))

end

/-- Statements in order. What one of them returns ends this one only. -/
def interpret (limits : Limits) : List Stmt → Raising Unit
  | [] => pure ()
  | s :: ss => do
    catching (execute limits.rounds limits.depth s) fun _ => pure ()
    interpret limits ss

/-- Takes up the end of a run, as a session does. -/
def settle (reporter : Reporter) : EStateM.Result Raised Machine α → Session × Option Raised
  | .ok _ m => (⟨m, reporter⟩, none)
  | .error (.interrupt (.failed e)) m => (⟨m, reporter.report e.diagnostic⟩, none)
  | .error raised m => (⟨m, reporter⟩, some raised)

/-- Runs statements on the machine of a session and reports what goes wrong. -/
def executeIn (limits : Limits) (s : Session) (statements : List Stmt) : Session × Option Raised :=
  settle s.reporter (interpret limits statements s.machine)

/-- A statement that hands its completion on, as one that raises it. -/
def raise (p : Run Completion) : Raising Unit := fun m =>
  match p m with
  | .ok .normal m => .ok () m
  | .ok (.returned v) m => .error (.returned v) m
  | .error i m => .error (.interrupt i) m

end Raising
end Lox
