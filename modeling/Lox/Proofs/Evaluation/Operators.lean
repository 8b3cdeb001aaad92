import Lox.Evaluation

/-! Operators on values. What one comes to rests on its operands alone, and it is a value that is no object, or an
interrupt. So whatever is said of runs need not be shown for the operators one by one. -/

namespace Lox
namespace Run

/-- The runs that are settled before they begin. -/
inductive Outright : Run Value → Prop where
  | gives {v : Value} : (∀ id, v ≠ .function id) → Outright (pure v)
  | fails (token : Token) (problem : RuntimeProblem) : Outright (fail token problem)
  | stuck (s : Stuck) : Outright (throw (.stuck s))

theorem outright_unary (operator : Token) (v : Value) : Outright (unary operator v) := by
  unfold unary
  split
  · exact .gives nofun
  · exact .gives nofun
  · exact .fails operator _
  · exact .stuck _

/-- By the time of the division the operator has looked at the divisor itself. -/
theorem outright_arithmetic (operator : Token) (x y : Float) : Outright (arithmetic operator x y) := by
  unfold arithmetic
  split
  case h_3 =>
    split
    · exact .fails operator _
    · next hy =>
      rw [quotient, if_neg hy]
      exact .gives nofun
  case h_8 => exact .stuck _
  all_goals exact .gives nofun

theorem outright_binary (operator : Token) (l r : Value) : Outright (binary operator l r) := by
  unfold binary
  split
  case h_5 => exact .fails operator _
  case h_6 => exact outright_arithmetic operator _ _
  case h_7 => exact .fails operator _
  all_goals exact .gives nofun

end Run
end Lox
