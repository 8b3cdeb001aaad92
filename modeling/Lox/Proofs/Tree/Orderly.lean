import Lox.Proofs.Tree.Formed

/-! The scopes that a text has, and programs whose names stand in order. Blocks, bodies with their parameters and
the scope of `this` around a method are scopes; a name belongs to the nearest of them that declares it, however
far down, and is in order if that declaration is done where the name stands. -/

namespace Lox

/-- The names that each scope around a place declares, from the innermost outward, but for the globals. -/
abbrev Context := List (List String)

/-- The number of scopes outward to the nearest that declares a name. -/
def Context.distance? (Γ : Context) (name : String) : Option Nat := Γ.findIdx? (·.contains name)

theorem Context.distance?_cons (names : List String) (Γ : Context) (name : String) :
    distance? (names :: Γ) name =
      if names.contains name then some 0 else (distance? Γ name).map (· + 1) := List.findIdx?_cons

/-- A scope at a place in it: the names it declares, and those of them whose first declaration is done. -/
structure Frame where
  declared : List String
  settled : List String

namespace Frame

/-- The scope of a body where it begins: its parameters are there, what it declares is to come. A block is a body
without parameters. -/
def ofBody (params : List Token) (body : List Stmt) : Frame :=
  ⟨params.map Token.lexeme ++ body.flatMap Stmt.declares, params.map Token.lexeme⟩

/-- The scope around a method. -/
def this : Frame := ⟨["this"], ["this"]⟩

end Frame

/-- The scopes around a place, from the innermost outward, but for the globals. -/
abbrev Frames := List Frame

namespace Frames

def context (Φ : Frames) : Context := Φ.map Frame.declared

/-- Whether a name that occurs here is in order. -/
def allows (Φ : Frames) (name : String) : Bool :=
  match Φ.find? (·.declared.contains name) with
  | some F => F.settled.contains name
  | none => true

theorem allows_cons (F : Frame) (Φ : Frames) (name : String) :
    allows (F :: Φ) name =
      if F.declared.contains name then F.settled.contains name else Frames.allows Φ name := by
  unfold allows
  rw [List.find?_cons]
  cases F.declared.contains name <;> rfl

/-- The place behind a declaration of `names`. -/
def settle (names : List String) : Frames → Frames
  | [] => []
  | F :: Φ => { F with settled := F.settled ++ names } :: Φ

@[simp] theorem context_settle (Φ : Frames) (names : List String) : (Φ.settle names).context = Φ.context := by
  cases Φ <;> rfl

end Frames

mutual

/-- Whether every variable that an expression reads or assigns is in order. -/
def Expr.orderly (Φ : Frames) : Expr → Bool
  | .literal _ | .this _ | .misplaced _ | .unknown _ => true
  | .grouping inner => inner.orderly Φ
  | .unary _ right => right.orderly Φ
  | .binary left _ right => left.orderly Φ && right.orderly Φ
  | .variable name => Φ.allows name.lexeme
  | .assign name value => Φ.allows name.lexeme && value.orderly Φ
  | .get object _ => object.orderly Φ
  | .set object _ value => object.orderly Φ && value.orderly Φ
  | .call callee _ arguments => callee.orderly Φ && Expr.orderlyAll Φ arguments

def Expr.orderlyAll (Φ : Frames) : List Expr → Bool
  | [] => true
  | e :: es => e.orderly Φ && Expr.orderlyAll Φ es

end

mutual

/-- Whether a statement is in order at a place. The name of a function or of a class is settled inside it. -/
def Stmt.orderly : Frames → Stmt → Bool
  | Φ, .expression inner | Φ, .print inner | Φ, .var _ (some inner) | Φ, .return _ (some inner) =>
    inner.orderly Φ
  | _, .var _ none | _, .return _ none | _, .misplaced _ | _, .unknown _ => true
  | Φ, .block statements => Stmt.orderlyAll (.ofBody [] statements :: Φ) statements
  | Φ, .branch condition whenTrue none => condition.orderly Φ && whenTrue.orderly Φ
  | Φ, .branch condition whenTrue (some whenFalse) =>
    condition.orderly Φ && whenTrue.orderly Φ && whenFalse.orderly Φ
  | Φ, .while condition body => condition.orderly Φ && body.orderly Φ
  | Φ, .function name params body =>
    Stmt.orderlyAll (.ofBody params body :: Φ.settle [name.lexeme]) body
  | Φ, .class name methods => Stmt.orderlyMethods (.this :: Φ.settle [name.lexeme]) methods

/-- Statements in order, each in the place that those before it lead to. -/
def Stmt.orderlyAll : Frames → List Stmt → Bool
  | _, [] => true
  | Φ, s :: ss => s.orderly Φ && Stmt.orderlyAll (Φ.settle s.declares) ss

/-- The bodies of methods. The name of a method is not declared in any scope. -/
def Stmt.orderlyMethods : Frames → List Stmt → Bool
  | Φ, .function _ params body :: rest =>
    Stmt.orderlyAll (.ofBody params body :: Φ) body && Stmt.orderlyMethods Φ rest
  | Φ, _ :: rest => Stmt.orderlyMethods Φ rest
  | _, [] => true

end

end Lox
