import Lox.Evaluation
import Lox.Proofs.Tree.Orderly

/-! Evaluation by lexical scoping. Here is the evaluator once more, except that it knows the scopes of the text
around what it evaluates, which a function takes from the place it is written at. A variable is read and
assigned in the scope that lies the number of scopes outward that the text says, or else in the globals, and it is
refused if the search for its name would come to any other scope. -/

namespace Lox

namespace Lexical

/-- Why such an evaluation ends: over an interrupt, or over a name that is looked up elsewhere than the text
says. -/
inductive Halt where
  | interrupt (i : Interrupt)
  | strayed (name : Token)

/-- `contexts` holds the scopes of the text around the body of each function, methods with that of `this`. -/
structure State where
  machine : Machine
  contexts : Array Context

end Lexical

abbrev Lexical := EStateM Lexical.Halt Lexical.State

namespace Lexical

variable {α : Type}

def lift (p : Run α) : Lexical α := fun s =>
  match p s.machine with
  | .ok a m => .ok a { s with machine := m }
  | .error i m => .error (.interrupt i) { s with machine := m }

instance : MonadLift Run Lexical := ⟨lift⟩

/-! Variables -/

/-- Whether the search for a name comes to the scope that the text says: the nearest that declares it, or else
the globals, if it comes to any. -/
def resolves (Γ : Context) (name : String) (m : Machine) : Bool :=
  match Γ.distance? name with
  | some distance => (m.scopes.owner? m.current name).any fun scope =>
      m.scopes.ancestor? m.current distance = some scope
  | none => (m.scopes.owner? m.current name).all fun scope => scope = Machine.globals

def checked (Γ : Context) (name : Token) : Lexical Unit := fun s =>
  if resolves Γ name.lexeme s.machine then .ok () s else .error (.strayed name) s

def readAt (distance : Nat) (name : String) : Run Value := fun m => Run.readAt m.current distance name m

def assignAt (distance : Nat) (name : String) (v : Value) : Run Unit := fun m =>
  match m.scopes.assignAt? m.current distance name v with
  | some scopes => .ok () { m with scopes }
  | none => .error (.stuck (.noAncestor distance)) m

def readGlobal (name : Token) : Run Value := fun m =>
  match (m.scopes.bindings Machine.globals).get? name.lexeme with
  | some v => .ok v m
  | none => .error (.failed ⟨name, .undefinedVariable name.lexeme⟩) m

def assignGlobal (name : Token) (v : Value) : Run Unit := fun m =>
  if (m.scopes.bindings Machine.globals).owns name.lexeme then
    .ok () (m.define Machine.globals name.lexeme v)
  else
    .error (.failed ⟨name, .undefinedVariable name.lexeme⟩) m

def lookUp (Γ : Context) (name : Token) : Lexical Value := do
  checked Γ name
  match Γ.distance? name.lexeme with
  | some distance => readAt distance name.lexeme
  | none => readGlobal name

def assign (Γ : Context) (name : Token) (v : Value) : Lexical Unit := do
  checked Γ name
  match Γ.distance? name.lexeme with
  | some distance => assignAt distance name.lexeme v
  | none => assignGlobal name v

/-! Functions and the places they are written at -/

/-- Makes a function whose body has the scopes `Γ` around it. -/
def remember (Γ : Context) (p : Run FunctionId) : Lexical FunctionId := do
  let f ← p
  modify fun s => { s with contexts := s.contexts.push Γ }
  pure f

def context (id : FunctionId) : Lexical Context := fun s =>
  match s.contexts[id]? with
  | some Γ => .ok Γ s
  | none => .error (.interrupt (.stuck .danglingReference)) s

/-- A field of an instance, or else a method of its class bound to it. -/
def property (object : InstanceId) (name : Token) : Lexical Value := do
  let o ← Run.instanceObject object
  match o.fields.get? name.lexeme with
  | some v => pure v
  | none =>
    match (← get).machine.findMethod? o.cls name.lexeme with
    | none => Run.fail name (.undefinedProperty name.lexeme)
    | some f =>
      let bound ← Run.bind (← Run.functionObject f) (.instance object)
      let Γ ← context f
      return .function (← remember Γ (Run.make (·.newFunction bound)))

/-- The methods of a class by name, whose bodies have the scopes `Γ` around them. -/
def methods (Γ : Context) : List Stmt → Bindings FunctionId → Lexical (Bindings FunctionId)
  | [], table => pure table
  | s :: rest, table =>
    match s.declaration? with
    | none => throw (.interrupt (.stuck (.statement s.kind)))
    | some d => do
      let f ← remember Γ (Run.closure d (d.name.lexeme = "init"))
      methods Γ rest (table.set d.name.lexeme f)

def declareClass (Γ : Context) (name : Token) (statements : List Stmt) : Lexical Unit := do
  Run.define name .nil
  let table ← methods (Frame.this.declared :: Γ) statements []
  let cls ← Run.make (·.newClass ⟨name.lexeme, none, table⟩)
  Run.assign name (.class cls)

/-! Statements and calls -/

def inScope (scope : ScopeId) (run : Lexical α) : Lexical α := fun s =>
  let outer := s.machine.current
  match run { s with machine := { s.machine with current := scope } } with
  | .ok a s => .ok a { s with machine := { s.machine with current := outer } }
  | .error halt s => .error halt { s with machine := { s.machine with current := outer } }

def limiting (paren : Token) (run : Lexical α) : Lexical α := fun s =>
  match run s with
  | .error (.interrupt .tooDeep) s => .error (.interrupt (.failed ⟨paren, .stackOverflow⟩)) s
  | result => result

def sequence (execute : Stmt → Lexical Completion) : List Stmt → Lexical Completion
  | [] => pure .normal
  | s :: ss => do
    match ← execute s with
    | .normal => sequence execute ss
    | .returned v => pure (.returned v)

def loop (condition : Lexical Bool) (body : Lexical Completion) : (rounds : Nat) → Lexical Completion
  | 0 => throw (.interrupt .unfinished)
  | rounds + 1 => do
    if ← condition then
      match ← body with
      | .normal => loop condition body rounds
      | .returned v => pure (.returned v)
    else
      pure .normal

/-- How a body is run in a scope. `Γ` holds the scopes around it, its own the first of them. -/
abbrev Body := (Γ : Context) → ScopeId → List Stmt → Lexical Completion

def block (execute : Context → Stmt → Lexical Completion) : Body := fun Γ scope statements =>
  inScope scope (sequence (execute Γ) statements)

/-- Calls a function whose body is written inside the scopes `Γ`. -/
def callFunction (body : Body) (Γ : Context) (f : FunctionObject) (arguments : List Value) :
    Lexical Value := do
  let scope ← Run.enter f arguments
  let d := f.declaration
  let completion ← body ((Frame.ofBody d.params d.body).declared :: Γ) scope d.body
  Run.result f completion

def construct (body : Body) (cls : ClassId) (arguments : List Value) : Lexical Value := do
  let object ← Run.make (·.newInstance cls)
  match (← get).machine.findMethod? cls "init" with
  | none => pure (.instance object)
  | some f =>
    let bound ← Run.bind (← Run.functionObject f) (.instance object)
    let Γ ← context f
    let _ ← callFunction body Γ bound arguments
    pure (.instance object)

def call (body : Body) (callee : Value) (arguments : List Value) : Lexical Value :=
  match callee with
  | .function id => do
    let f ← Run.functionObject id
    let Γ ← context id
    callFunction body Γ f arguments
  | .class id => construct body id arguments
  | .native id => Run.callNative id arguments
  | _ => throw (.interrupt (.stuck .danglingReference))

def checkedCall (body : Body) (paren : Token) (callee : Value) (arguments : List Value) :
    Lexical Value := do
  match (← get).machine.arity? callee with
  | none => Run.fail paren .notCallable
  | some expected =>
    if expected = arguments.length then
      limiting paren (call body callee arguments)
    else
      Run.fail paren (.wrongArity expected arguments.length)

mutual

def evaluate (rounds : Nat) : (depth : Nat) → (Γ : Context) → Expr → Lexical Value
  | 0, _, _ => throw (.interrupt .tooDeep)
  | depth + 1, Γ, e =>
    match e with
    | .literal value => pure (.ofLiteral value)
    | .grouping inner => evaluate rounds depth Γ inner
    | .unary operator right => do
      let v ← evaluate rounds depth Γ right
      Run.unary operator v
    | .binary left operator right => do
      let l ← evaluate rounds depth Γ left
      match operator.kind with
      | .kwOr => if l.isTruthy then pure l else evaluate rounds depth Γ right
      | .kwAnd => if l.isTruthy then evaluate rounds depth Γ right else pure l
      | _ =>
        let r ← evaluate rounds depth Γ right
        Run.binary operator l r
    | .variable name => lookUp Γ name
    | .assign name value => do
      let v ← evaluate rounds depth Γ value
      assign Γ name v
      pure v
    | .get object name => do
      match ← evaluate rounds depth Γ object with
      | .instance o => property o name
      | _ => Run.fail name .propertyOfNonInstance
    | .set object name value => do
      match ← evaluate rounds depth Γ object with
      | .instance o =>
        let v ← evaluate rounds depth Γ value
        lift (modify fun m => m.setField o name.lexeme v)
        pure v
      | _ => Run.fail name .fieldOfNonInstance
    | .call callee paren arguments => do
      let f ← evaluate rounds depth Γ callee
      let vs ← arguments.mapM (evaluate rounds depth Γ)
      checkedCall (block (execute rounds depth)) paren f vs
    | .this keyword => Run.lookUp keyword
    | .misplaced statement => throw (.interrupt (.stuck (.expression statement.kind)))
    | .unknown kind => throw (.interrupt (.stuck (.expression kind)))

def execute (rounds : Nat) : (depth : Nat) → (Γ : Context) → Stmt → Lexical Completion
  | 0, _, _ => throw (.interrupt .tooDeep)
  | depth + 1, Γ, s =>
    match s with
    | .expression inner => do
      let _ ← evaluate rounds depth Γ inner
      pure .normal
    | .print inner => do
      let v ← evaluate rounds depth Γ inner
      lift (modify fun m => m.write (m.display v))
      pure .normal
    | .var name initializer => do
      let v ← match initializer with
        | some e => evaluate rounds depth Γ e
        | none => pure .nil
      Run.define name v
      pure .normal
    | .block statements => do
      let scope ← Run.make fun m => m.newScope m.current
      block (execute rounds depth) ((Frame.ofBody [] statements).declared :: Γ) scope statements
    | .branch condition whenTrue whenFalse => do
      let v ← evaluate rounds depth Γ condition
      if v.isTruthy then execute rounds depth Γ whenTrue
      else match whenFalse with
        | some s => execute rounds depth Γ s
        | none => pure .normal
    | .while condition body =>
      loop (Value.isTruthy <$> evaluate rounds depth Γ condition) (execute rounds depth Γ body) rounds
    | .function name params body => do
      let f ← remember Γ (Run.closure ⟨name, params, body⟩ false)
      Run.define name (.function f)
      pure .normal
    | .return _ value => do
      let v ← match value with
        | some e => evaluate rounds depth Γ e
        | none => pure .nil
      pure (.returned v)
    | .class name methods => do
      declareClass Γ name methods
      pure .normal
    | .misplaced inner => throw (.interrupt (.stuck (.statement inner.kind)))
    | .unknown kind => throw (.interrupt (.stuck (.statement kind)))

end

/-- Statements in order. Around a program there are no scopes but the globals. -/
def interpret (limits : Limits) : List Stmt → Lexical Unit
  | [] => pure ()
  | s :: ss => do
    let _ ← execute limits.rounds limits.depth [] s
    interpret limits ss

end Lexical
end Lox
