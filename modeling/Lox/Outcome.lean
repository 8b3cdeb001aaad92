import Lox.Machine
import Lox.Diagnostic

/-! How a run can end: a value or a completion, a failure of the program at one of its tokens, or an
interrupt that is no fault of the program's. -/

namespace Lox

inductive RuntimeProblem where
  | undefinedVariable (name : String)
  | undefinedProperty (name : String)
  | operandNotNumber
  | operandsNotNumbers
  | operandsNotAddable
  | divisionByZero
  | propertyOfNonInstance
  | fieldOfNonInstance
  | notCallable
  | wrongArity (expected : Int) (got : Nat)
  | stackOverflow

def RuntimeProblem.message : RuntimeProblem → String
  | undefinedVariable name => s!"Undefined variable '{name}'."
  | undefinedProperty name => s!"Undefined property '{name}'."
  | operandNotNumber => "Operand must be a number."
  | operandsNotNumbers => "Operands must be numbers."
  | operandsNotAddable => "Operands must be two numbers or two strings."
  | divisionByZero => "Division by zero."
  | propertyOfNonInstance => "Only instances have properties."
  | fieldOfNonInstance => "Only instances have fields."
  | notCallable => "Can only call functions and classes."
  | wrongArity expected got => s!"Expected {expected} arguments but got {got}."
  | stackOverflow => "Stack overflow."

structure RuntimeError where
  token : Token
  problem : RuntimeProblem

def RuntimeError.diagnostic (e : RuntimeError) : Diagnostic := .runtime e.token.line e.problem.message

/-- What makes no sense to run. No parsed program comes to any of it. -/
inductive Stuck where
  | statement (kind : String)
  | expression (kind : String)
  | unaryOperator (operator : Token)
  | binaryOperator (operator : Token)
  | noAncestor (distance : Nat)
  | zeroDivisor
  | danglingReference

def Stuck.message : Stuck → String
  | statement kind => s!"Interpreter: no visitor for statement {kind}"
  | expression kind => s!"Interpreter: no visitor for expression {kind}"
  | unaryOperator operator => s!"Unexpected unary operator: {operator.display}"
  | binaryOperator operator => s!"Unexpected binary operator: {operator.display}"
  | noAncestor distance => Scopes.noAncestorMessage distance
  | zeroDivisor => "float division by zero"
  | danglingReference => "Reference to no object"

/-- `tooDeep` ends a run that nests beyond its limit outside any call, `unfinished` one whose loop turned
too often. -/
inductive Interrupt where
  | failed (e : RuntimeError)
  | tooDeep
  | unfinished
  | stuck (s : Stuck)

/-- A statement either lets the next one run or returns from the function around it. -/
inductive Completion where
  | normal
  | returned (v : Value)

abbrev Run := EStateM Interrupt Machine

end Lox
