import Lox.Literal

/-! Values. Functions, classes, instances and native functions are objects, held by number. -/

namespace Lox

abbrev FunctionId := Nat
abbrev ClassId := Nat
abbrev InstanceId := Nat
abbrev NativeId := Nat

inductive Value where
  | nil
  | bool (b : Bool)
  | number (x : Float)
  | string (s : String)
  | function (id : FunctionId)
  | class (id : ClassId)
  | instance (id : InstanceId)
  | native (id : NativeId)

instance : Inhabited Value := ⟨.nil⟩

namespace Value

def ofLiteral : Literal → Value
  | .nil => nil
  | .bool b => bool b
  | .number x => number x
  | .string s => string s

def isTruthy : Value → Bool
  | nil => false
  | bool b => b
  | _ => true

/-- Values of two sorts are never equal. Numbers compare as doubles, objects by identity. -/
def equals : Value → Value → Bool
  | nil, nil => true
  | bool a, bool b => a == b
  | number x, number y => x == y
  | string s, string t => s == t
  | function i, function j => i == j
  | .class i, .class j => i == j
  | .instance i, .instance j => i == j
  | native i, native j => i == j
  | _, _ => false

/-- Whether two values are one and the same. Numbers are when their bits are, strings when their
characters are. -/
def isSameObject : Value → Value → Bool
  | nil, nil => true
  | bool a, bool b => a == b
  | number x, number y => x.toBits == y.toBits
  | string s, string t => s == t
  | function i, function j => i == j
  | .class i, .class j => i == j
  | .instance i, .instance j => i == j
  | native i, native j => i == j
  | _, _ => false

end Value

end Lox
