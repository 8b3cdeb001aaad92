import Lox.Tree.Outline

/-! Trees as text: every node between parentheses, its operator or its keyword first. The text of a
statement is written inside its parent like any other. -/

namespace Lox

/-- A constant in the text of a tree: a string in quotes, all else as a program sees it. -/
def Literal.text : Literal → String
  | .nil => "nil"
  | .bool b => if b then "true" else "false"
  | .number x => Number.display x
  | .string s => Text.quoted s

def parenthesize (name : String) (parts : List String) : String :=
  "(" ++ " ".intercalate (name :: parts) ++ ")"

mutual

def Expr.text : Expr → String
  | .literal value => value.text
  | .grouping inner => parenthesize "group" [inner.text]
  | .unary operator right => parenthesize operator.lexeme [right.text]
  | .binary left operator right => parenthesize operator.lexeme [left.text, right.text]
  | .variable name => name.lexeme
  | .assign name value => parenthesize "=" [name.lexeme, value.text]
  | .get object name => parenthesize "." [object.text, name.lexeme]
  | .set object name value =>
    parenthesize "=" [parenthesize "." [object.text, name.lexeme], value.text]
  | .call callee _ arguments => parenthesize "call" (callee.text :: Expr.texts arguments)
  | .this _ => "this"
  | .misplaced statement => statement.text
  | .unknown _ => ""

def Expr.texts : List Expr → List String
  | [] => []
  | e :: es => e.text :: Expr.texts es

def Stmt.text : Stmt → String
  | .expression inner => parenthesize ";" [inner.text]
  | .print inner => parenthesize "print" [inner.text]
  | .var name none => parenthesize "var" [name.lexeme]
  | .var name (some value) => parenthesize "var" [name.lexeme, "=", value.text]
  | .block statements => parenthesize "block" (Stmt.texts statements)
  | .branch condition whenTrue none => parenthesize "if" [condition.text, whenTrue.text]
  | .branch condition whenTrue (some whenFalse) =>
    parenthesize "if-else" [condition.text, whenTrue.text, whenFalse.text]
  | .while condition body => parenthesize "while" [condition.text, body.text]
  | .function name params body =>
    let params := "(" ++ " ".intercalate (params.map Token.lexeme) ++ ")"
    parenthesize "fun" (name.lexeme :: params :: Stmt.texts body)
  | .return _ none => parenthesize "return" []
  | .return _ (some value) => parenthesize "return" [value.text]
  | .class name methods => parenthesize "class" (name.lexeme :: Stmt.texts methods)
  | .misplaced inner => inner.text
  | .unknown _ => ""

def Stmt.texts : List Stmt → List String
  | [] => []
  | s :: ss => s.text :: Stmt.texts ss

end

theorem Expr.texts_eq_map (es : List Expr) : Expr.texts es = es.map Expr.text := by
  induction es with
  | nil => rfl
  | cons e es ih => rw [Expr.texts, ih, List.map_cons]

theorem Stmt.texts_eq_map (ss : List Stmt) : Stmt.texts ss = ss.map Stmt.text := by
  induction ss with
  | nil => rfl
  | cons s ss ih => rw [Stmt.texts, ih, List.map_cons]

mutual

/-- The kind of the first unknown node, in the order of writing. -/
def Expr.unknownKind? : Expr → Option String
  | .literal _ | .variable _ | .this _ => none
  | .grouping inner => inner.unknownKind?
  | .unary _ right => right.unknownKind?
  | .binary left _ right => left.unknownKind?.or right.unknownKind?
  | .assign _ value => value.unknownKind?
  | .get object _ => object.unknownKind?
  | .set object _ value => object.unknownKind?.or value.unknownKind?
  | .call callee _ arguments => callee.unknownKind?.or (Expr.firstUnknownKind? arguments)
  | .misplaced statement => statement.unknownKind?
  | .unknown kind => some kind

def Expr.firstUnknownKind? : List Expr → Option String
  | [] => none
  | e :: es => e.unknownKind?.or (Expr.firstUnknownKind? es)

def Stmt.unknownKind? : Stmt → Option String
  | .expression inner | .print inner => inner.unknownKind?
  | .var _ none | .return _ none => none
  | .var _ (some value) | .return _ (some value) => value.unknownKind?
  | .block statements => Stmt.firstUnknownKind? statements
  | .branch condition whenTrue none => condition.unknownKind?.or whenTrue.unknownKind?
  | .branch condition whenTrue (some whenFalse) =>
    condition.unknownKind?.or (whenTrue.unknownKind?.or whenFalse.unknownKind?)
  | .while condition body => condition.unknownKind?.or body.unknownKind?
  | .function _ _ body => Stmt.firstUnknownKind? body
  | .class _ methods => Stmt.firstUnknownKind? methods
  | .misplaced inner => inner.unknownKind?
  | .unknown kind => some kind

def Stmt.firstUnknownKind? : List Stmt → Option String
  | [] => none
  | s :: ss => s.unknownKind?.or (Stmt.firstUnknownKind? ss)

end

inductive Unprintable where
  | unknownKind (kind : String)
  | tooDeep

def Unprintable.message : Unprintable → String
  | unknownKind kind => s!"AstPrinter: no emitter for {kind}"
  | tooDeep => "Too much nesting."

/-- Guards the text of a tree against unknown nodes and against more than `depth` levels of nesting. A
node of the bare kind `expr` would be written by writing it again, so it counts as nested too deeply. -/
def guarded (depth : Nat) (unknownKind? : Option String) (outline : Outline) (text : Unit → String) :
    Except Unprintable String :=
  match unknownKind? with
  | some "expr" => .error .tooDeep
  | some kind => .error (.unknownKind kind)
  | none => if outline.height ≤ depth then .ok (text ()) else .error .tooDeep

def Expr.render (depth : Nat) (e : Expr) : Except Unprintable String :=
  guarded depth e.unknownKind? e.outline fun _ => e.text

def Stmt.render (depth : Nat) (s : Stmt) : Except Unprintable String :=
  guarded depth s.unknownKind? s.outline fun _ => s.text

/-- A program as text, one line for each statement. -/
def renderProgram (depth : Nat) (statements : List Stmt) : Except Unprintable String :=
  ("\n".intercalate ·) <$> statements.mapM (Stmt.render depth)

end Lox
