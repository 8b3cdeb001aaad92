import Lox.Number
import Lox.Text.Quoted

/-! The constants that stand in tokens and trees. `nil` also marks a token without a constant. -/

namespace Lox

inductive Literal where
  | nil
  | bool (b : Bool)
  | number (x : Float)
  | string (s : String)

namespace Literal

def display : Literal → String
  | nil => "None"
  | bool b => if b then "True" else "False"
  | number x => Number.written x
  | string s => s

/-- As `display`, but with quotes around a string. -/
def written : Literal → String
  | string s => Text.quoted s
  | l => l.display

/-- Equality of constants in trees, where `true` and `false` count as one and zero. -/
def same : Literal → Literal → Bool
  | nil, nil => true
  | string s, string t => s == t
  | bool b, bool c => b == c
  | number x, number y => x == y
  | bool b, number x | number x, bool b => x == (if b then 1 else 0)
  | _, _ => false

end Literal

end Lox
