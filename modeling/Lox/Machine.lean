import Lox.Tree
import Lox.Scope
import Lox.Value

/-! The machine that programs run on: its scopes, its objects, what it has written. Objects and scopes
are only ever added, and only the fields of an instance and the bindings of a scope change. -/

namespace Lox

structure FunctionObject where
  declaration : Declaration
  closure : ScopeId
  isInitializer : Bool

structure ClassObject where
  name : String
  superclass : Option ClassId
  methods : Bindings FunctionId

structure InstanceObject where
  cls : ClassId
  fields : Bindings Value

/-- What a native function gives back. -/
inductive NativeRule where
  | clock
  | count
  | first
  | last

structure NativeObject where
  name : String
  arity : Int
  rule : NativeRule

structure Machine where
  scopes : Scopes Value
  functions : Array FunctionObject
  classes : Array ClassObject
  instances : Array InstanceObject
  natives : Array NativeObject
  /-- The scope that names are looked up from. -/
  current : ScopeId
  output : String
  /-- The readings that the clock will give, and how many it has given. -/
  clock : Nat → Float
  readings : Nat

namespace Machine

def globals : ScopeId := 0

def newScope (m : Machine) (parent : ScopeId) : ScopeId × Machine :=
  let (id, scopes) := m.scopes.new (some parent)
  (id, { m with scopes })

def define (m : Machine) (scope : ScopeId) (name : String) (v : Value) : Machine :=
  { m with scopes := m.scopes.define scope name v }

def newFunction (m : Machine) (f : FunctionObject) : FunctionId × Machine :=
  (m.functions.size, { m with functions := m.functions.push f })

def newClass (m : Machine) (c : ClassObject) : ClassId × Machine :=
  (m.classes.size, { m with classes := m.classes.push c })

def newInstance (m : Machine) (cls : ClassId) : InstanceId × Machine :=
  (m.instances.size, { m with instances := m.instances.push ⟨cls, []⟩ })

def newNative (m : Machine) (n : NativeObject) : NativeId × Machine :=
  (m.natives.size, { m with natives := m.natives.push n })

/-- A machine before its first program: the globals hold the clock. -/
def fresh (clock : Nat → Float) : Machine :=
  let (globals, scopes) := Scopes.empty.new none
  let m : Machine := ⟨scopes, #[], #[], #[], #[], globals, "", clock, 0⟩
  let (id, m) := m.newNative ⟨"clock", 0, .clock⟩
  m.define globals "clock" (.native id)

def write (m : Machine) (text : String) : Machine := { m with output := m.output ++ text ++ "\n" }

/-- The classes from `id` to the root. A superclass is older than its subclass, so the way ends. -/
def lineage (m : Machine) (id : ClassId) : List ClassId :=
  id :: match m.classes[id]?.bind ClassObject.superclass with
    | none => []
    | some c => if c < id then m.lineage c else []
termination_by id

/-- The method of that name from the nearest class that declares one. -/
def findMethod? (m : Machine) (id : ClassId) (name : String) : Option FunctionId :=
  (m.lineage id).findSome? fun c => m.classes[c]?.bind fun cls => cls.methods.get? name

/-- A copy of a function in which `this` is the given value, in a scope of its own. -/
def bind (m : Machine) (f : FunctionObject) (receiver : Value) : FunctionObject × Machine :=
  let (scope, m) := m.newScope f.closure
  ({ f with closure := scope }, m.define scope "this" receiver)

def setField (m : Machine) (object : InstanceId) (name : String) (v : Value) : Machine :=
  { m with instances := m.instances.modify object fun o => { o with fields := o.fields.set name v } }

def className (m : Machine) (id : ClassId) : String := (m.classes[id]?.map ClassObject.name).getD ""

/-- The text of a value as a program sees it. -/
def display (m : Machine) : Value → String
  | .nil => "nil"
  | .bool b => if b then "true" else "false"
  | .number x => Number.display x
  | .string s => s
  | .function id => "<fn " ++ (m.functions[id]?.map (·.declaration.name.lexeme)).getD "" ++ ">"
  | .class id => m.className id
  | .instance id => (m.instances[id]?.map fun o => m.className o.cls).getD "" ++ " instance"
  | .native _ => "<native fn>"

/-- The number of arguments a value takes, if it can be called. A class takes those of its initializer. -/
def arity? (m : Machine) : Value → Option Int
  | .function id => m.functions[id]?.map (·.declaration.params.length)
  | .class id =>
    some (((m.findMethod? id "init").bind (m.functions[·]?)).elim 0 (·.declaration.params.length))
  | .native id => m.natives[id]?.map NativeObject.arity
  | _ => none

end Machine

end Lox
