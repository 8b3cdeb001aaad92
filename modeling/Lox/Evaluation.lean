import Lox.Outcome

/-! Evaluation of expressions, execution of statements, calls. `depth` is the nesting that is still
allowed, `rounds` the number of turns any one loop may take. A `return` is a completion that blocks and
loops hand on and the call takes up. -/

namespace Lox

namespace Run

def fail {α : Type} (token : Token) (problem : RuntimeProblem) : Run α :=
  throw (.failed ⟨token, problem⟩)

def functionObject (id : FunctionId) : Run FunctionObject := fun m =>
  match m.functions[id]? with
  | some f => .ok f m
  | none => .error (.stuck .danglingReference) m

def instanceObject (id : InstanceId) : Run InstanceObject := fun m =>
  match m.instances[id]? with
  | some o => .ok o m
  | none => .error (.stuck .danglingReference) m

/-- Changes the machine by an operation that gives back what it made. -/
def make {α : Type} (operation : Machine → α × Machine) : Run α := fun m =>
  let (a, m) := operation m
  .ok a m

def lookUp (name : Token) : Run Value := fun m =>
  match m.scopes.get? m.current name.lexeme with
  | some v => .ok v m
  | none => .error (.failed ⟨name, .undefinedVariable name.lexeme⟩) m

def assign (name : Token) (v : Value) : Run Unit := fun m =>
  match m.scopes.owner? m.current name.lexeme with
  | some scope => .ok () (m.define scope name.lexeme v)
  | none => .error (.failed ⟨name, .undefinedVariable name.lexeme⟩) m

theorem assign_eq (name : Token) (v : Value) (m : Machine) :
    assign name v m =
      match m.scopes.assign? m.current name.lexeme v with
      | some scopes => .ok () { m with scopes }
      | none => .error (.failed ⟨name, .undefinedVariable name.lexeme⟩) m := by
  unfold assign Scopes.assign?
  cases m.scopes.owner? m.current name.lexeme <;> rfl

/-- Binds a name in the current scope. -/
def define (name : Token) (v : Value) : Run Unit :=
  modify fun m => m.define m.current name.lexeme v

def bind (f : FunctionObject) (receiver : Value) : Run FunctionObject := make fun m => m.bind f receiver

/-- A field of an instance, or else a method of its class bound to it. -/
def property (object : InstanceId) (name : Token) : Run Value := do
  let o ← instanceObject object
  match o.fields.get? name.lexeme with
  | some v => pure v
  | none =>
    match (← get).findMethod? o.cls name.lexeme with
    | none => fail name (.undefinedProperty name.lexeme)
    | some f =>
      let bound ← bind (← functionObject f) (.instance object)
      return .function (← make (·.newFunction bound))

/-- Runs in another scope and comes back, however the run ends. -/
def inScope {α : Type} (scope : ScopeId) (run : Run α) : Run α := fun m =>
  let outer := m.current
  match run { m with current := scope } with
  | .ok a m => .ok a { m with current := outer }
  | .error e m => .error e { m with current := outer }

/-- Nesting that ends inside a call ends at that call. -/
def limiting {α : Type} (paren : Token) (run : Run α) : Run α := fun m =>
  match run m with
  | .error .tooDeep m => .error (.failed ⟨paren, .stackOverflow⟩) m
  | result => result

/-- Statements in order, up to the first that returns. -/
def sequence (execute : Stmt → Run Completion) : List Stmt → Run Completion
  | [] => pure .normal
  | s :: ss => do
    match ← execute s with
    | .normal => sequence execute ss
    | .returned v => pure (.returned v)

/-- How a body is run in a scope. -/
abbrev Body := ScopeId → List Stmt → Run Completion

def block (execute : Stmt → Run Completion) : Body := fun scope statements =>
  inScope scope (sequence execute statements)

def loop (condition : Run Bool) (body : Run Completion) : (rounds : Nat) → Run Completion
  | 0 => throw .unfinished
  | rounds + 1 => do
    if ← condition then
      match ← body with
      | .normal => loop condition body rounds
      | .returned v => pure (.returned v)
    else
      pure .normal

/-- A scope for a call, with the parameters bound by position. Arguments without a parameter are dropped,
parameters without an argument stay unbound. -/
def enter (f : FunctionObject) (arguments : List Value) : Run ScopeId := make fun m =>
  let (scope, m) := m.newScope f.closure
  (scope, (f.declaration.params.zip arguments).foldl (fun m p => m.define scope p.1.lexeme p.2) m)

/-- Reads a name in the scope `distance` steps outward. A name that this scope does not own reads as nil. -/
def readAt (scope : ScopeId) (distance : Nat) (name : String) : Run Value := fun m =>
  match m.scopes.getAt? scope distance name with
  | some v => .ok (v.getD .nil) m
  | none => .error (.stuck (.noAncestor distance)) m

/-- What a call gives back. An initializer gives the instance it was bound to, whatever it returns. -/
def result (f : FunctionObject) (completion : Completion) : Run Value := do
  if f.isInitializer then
    readAt f.closure 0 "this"
  else
    match completion with
    | .normal => pure .nil
    | .returned v => pure v

def callFunction (body : Body) (f : FunctionObject) (arguments : List Value) : Run Value := do
  let scope ← enter f arguments
  let completion ← body scope f.declaration.body
  result f completion

/-- A new instance, on which the initializer has run if the class has one. -/
def construct (body : Body) (cls : ClassId) (arguments : List Value) : Run Value := do
  let object ← make (·.newInstance cls)
  match (← get).findMethod? cls "init" with
  | none => pure (.instance object)
  | some f =>
    let bound ← bind (← functionObject f) (.instance object)
    let _ ← callFunction body bound arguments
    pure (.instance object)

def callNative (id : NativeId) (arguments : List Value) : Run Value := fun m =>
  match m.natives[id]?.map NativeObject.rule with
  | none => .error (.stuck .danglingReference) m
  | some .clock => .ok (.number (m.clock m.readings)) { m with readings := m.readings + 1 }
  | some .count => .ok (.number arguments.length.toFloat) m
  | some .first => .ok (arguments.head?.getD .nil) m
  | some .last => .ok (arguments.getLast?.getD .nil) m

/-- Calls a value that can be called, with any number of arguments. -/
def call (body : Body) (callee : Value) (arguments : List Value) : Run Value :=
  match callee with
  | .function id => do callFunction body (← functionObject id) arguments
  | .class id => construct body id arguments
  | .native id => callNative id arguments
  | _ => throw (.stuck .danglingReference)

/-- Calls a value, if it can be called and takes that many arguments. -/
def checkedCall (body : Body) (paren : Token) (callee : Value) (arguments : List Value) :
    Run Value := do
  match (← get).arity? callee with
  | none => fail paren .notCallable
  | some expected =>
    if expected = arguments.length then
      limiting paren (call body callee arguments)
    else
      fail paren (.wrongArity expected arguments.length)

def unary (operator : Token) (right : Value) : Run Value :=
  match operator.kind, right with
  | .bang, v => pure (.bool !v.isTruthy)
  | .minus, .number x => pure (.number (-x))
  | .minus, _ => fail operator .operandNotNumber
  | _, _ => throw (.stuck (.unaryOperator operator))

/-- There is no quotient by a zero of either sign. -/
def quotient (x y : Float) : Run Float :=
  if y == 0 then throw (.stuck .zeroDivisor) else pure (x / y)

def arithmetic (operator : Token) (x y : Float) : Run Value :=
  match operator.kind with
  | .minus => pure (.number (x - y))
  | .star => pure (.number (x * y))
  | .slash => if y == 0 then fail operator .divisionByZero else .number <$> quotient x y
  | .greater => pure (.bool (x > y))
  | .greaterEqual => pure (.bool (x ≥ y))
  | .less => pure (.bool (x < y))
  | .lessEqual => pure (.bool (x ≤ y))
  | _ => throw (.stuck (.binaryOperator operator))

def binary (operator : Token) (left right : Value) : Run Value :=
  match operator.kind, left, right with
  | .equalEqual, l, r => pure (.bool (l.equals r))
  | .bangEqual, l, r => pure (.bool !l.equals r)
  | .plus, .number x, .number y => pure (.number (x + y))
  | .plus, .string s, .string t => pure (.string (s ++ t))
  | .plus, _, _ => fail operator .operandsNotAddable
  | _, .number x, .number y => arithmetic operator x y
  | _, _, _ => fail operator .operandsNotNumbers

/-- A function that closes over the current scope. -/
def closure (declaration : Declaration) (isInitializer : Bool) : Run FunctionId :=
  make fun m => m.newFunction ⟨declaration, m.current, isInitializer⟩

/-- The methods of a class by name. A later method takes the place of an earlier one. -/
def methods : List Stmt → Bindings FunctionId → Run (Bindings FunctionId)
  | [], table => pure table
  | s :: rest, table =>
    match s.declaration? with
    | none => throw (.stuck (.statement s.kind))
    | some d => do
      let f ← closure d (d.name.lexeme = "init")
      methods rest (table.set d.name.lexeme f)

def declareClass (name : Token) (statements : List Stmt) : Run Unit := do
  define name .nil
  let table ← methods statements []
  let cls ← make (·.newClass ⟨name.lexeme, none, table⟩)
  assign name (.class cls)

end Run

mutual

def evaluate (rounds : Nat) : (depth : Nat) → Expr → Run Value
  | 0, _ => throw .tooDeep
  | depth + 1, e =>
    match e with
    | .literal value => pure (.ofLiteral value)
    | .grouping inner => evaluate rounds depth inner
    | .unary operator right => do
      let v ← evaluate rounds depth right
      Run.unary operator v
    | .binary left operator right => do
      let l ← evaluate rounds depth left
      match operator.kind with
      | .kwOr => if l.isTruthy then pure l else evaluate rounds depth right
      | .kwAnd => if l.isTruthy then evaluate rounds depth right else pure l
      | _ =>
        let r ← evaluate rounds depth right
        Run.binary operator l r
    | .variable name => Run.lookUp name
    | .assign name value => do
      let v ← evaluate rounds depth value
      Run.assign name v
      pure v
    | .get object name => do
      match ← evaluate rounds depth object with
      | .instance o => Run.property o name
      | _ => Run.fail name .propertyOfNonInstance
    | .set object name value => do
      match ← evaluate rounds depth object with
      | .instance o =>
        let v ← evaluate rounds depth value
        modify fun m => m.setField o name.lexeme v
        pure v
      | _ => Run.fail name .fieldOfNonInstance
    | .call callee paren arguments => do
      let f ← evaluate rounds depth callee
      let vs ← arguments.mapM (evaluate rounds depth)
      Run.checkedCall (Run.block (execute rounds depth)) paren f vs
    | .this keyword => Run.lookUp keyword
    | .misplaced statement => throw (.stuck (.expression statement.kind))
    | .unknown kind => throw (.stuck (.expression kind))

def execute (rounds : Nat) : (depth : Nat) → Stmt → Run Completion
  | 0, _ => throw .tooDeep
  | depth + 1, s =>
    match s with
    | .expression inner => do
      let _ ← evaluate rounds depth inner
      pure .normal
    | .print inner => do
      let v ← evaluate rounds depth inner
      modify fun m => m.write (m.display v)
      pure .normal
    | .var name initializer => do
      let v ← match initializer with
        | some e => evaluate rounds depth e
        | none => pure .nil
      Run.define name v
      pure .normal
    | .block statements => do
      let scope ← Run.make fun m => m.newScope m.current
      Run.block (execute rounds depth) scope statements
    | .branch condition whenTrue whenFalse => do
      let v ← evaluate rounds depth condition
      if v.isTruthy then execute rounds depth whenTrue
      else match whenFalse with
        | some s => execute rounds depth s
        | none => pure .normal
    | .while condition body =>
      Run.loop (Value.isTruthy <$> evaluate rounds depth condition) (execute rounds depth body) rounds
    | .function name params body => do
      let f ← Run.closure ⟨name, params, body⟩ false
      Run.define name (.function f)
      pure .normal
    | .return _ value => do
      let v ← match value with
        | some e => evaluate rounds depth e
        | none => pure .nil
      pure (.returned v)
    | .class name methods => do
      Run.declareClass name methods
      pure .normal
    | .misplaced inner => throw (.stuck (.statement inner.kind))
    | .unknown kind => throw (.stuck (.statement kind))

end

/-- How deeply trees may nest, and how often a loop may turn. -/
structure Limits where
  depth : Nat
  rounds : Nat

/-- Deep enough for what people write, and no loop ends for its number of turns. -/
def Limits.standard : Limits := ⟨600, Nat.pow 10 18⟩

/-- Statements in order. A `return` outside any function does not end them. -/
def interpret (limits : Limits) : List Stmt → Run Unit
  | [] => pure ()
  | s :: ss => do
    let _ ← execute limits.rounds limits.depth s
    interpret limits ss

end Lox
