import Lox.Tree

/-! The outline of a tree: its kinds and fields as plain data, with tokens reduced to their lexemes. -/

namespace Lox

inductive Outline where
  | absent
  | constant (value : Literal)
  | lexeme (text : String)
  | list (items : List Outline)
  | node (kind : String) (fields : List (String × Outline))

namespace Outline

def ofTokens (ts : List Token) : Outline := list (ts.map fun t => lexeme t.lexeme)

mutual

/-- The number of nodes on the longest way down. -/
def height : Outline → Nat
  | node _ fields => heightOfFields fields + 1
  | list items => heightOfItems items
  | _ => 0

def heightOfItems : List Outline → Nat
  | [] => 0
  | o :: os => max o.height (heightOfItems os)

def heightOfFields : List (String × Outline) → Nat
  | [] => 0
  | (_, o) :: fields => max o.height (heightOfFields fields)

end

end Outline

mutual

def Expr.outline : Expr → Outline
  | .literal value => .node "literal" [("value", .constant value)]
  | .grouping inner => .node "grouping" [("expression", inner.outline)]
  | .unary operator right =>
    .node "unary" [("operator", .lexeme operator.lexeme), ("right", right.outline)]
  | .binary left operator right =>
    .node "binary"
      [("left", left.outline), ("operator", .lexeme operator.lexeme), ("right", right.outline)]
  | .variable name => .node "variable" [("name", .lexeme name.lexeme)]
  | .assign name value => .node "assign" [("name", .lexeme name.lexeme), ("value", value.outline)]
  | .get object name => .node "get" [("object", object.outline), ("name", .lexeme name.lexeme)]
  | .set object name value =>
    .node "set" [("object", object.outline), ("name", .lexeme name.lexeme), ("value", value.outline)]
  | .call callee paren arguments =>
    .node "call"
      [("callee", callee.outline), ("paren", .lexeme paren.lexeme),
        ("arguments", .list (Expr.outlines arguments))]
  | .this keyword => .node "this" [("keyword", .lexeme keyword.lexeme)]
  | .misplaced statement => statement.outline
  | .unknown kind => .node kind []

def Expr.outlines : List Expr → List Outline
  | [] => []
  | e :: es => e.outline :: Expr.outlines es

def Stmt.outline : Stmt → Outline
  | .expression inner => .node "expression" [("expression", inner.outline)]
  | .print inner => .node "print" [("expression", inner.outline)]
  | .var name none => .node "var" [("name", .lexeme name.lexeme), ("initializer", .absent)]
  | .var name (some value) =>
    .node "var" [("name", .lexeme name.lexeme), ("initializer", value.outline)]
  | .block statements => .node "block" [("statements", .list (Stmt.outlines statements))]
  | .branch condition whenTrue none =>
    .node "if"
      [("condition", condition.outline), ("then_branch", whenTrue.outline), ("else_branch", .absent)]
  | .branch condition whenTrue (some whenFalse) =>
    .node "if"
      [("condition", condition.outline), ("then_branch", whenTrue.outline),
        ("else_branch", whenFalse.outline)]
  | .while condition body =>
    .node "while" [("condition", condition.outline), ("body", body.outline)]
  | .function name params body =>
    .node "function"
      [("name", .lexeme name.lexeme), ("params", .ofTokens params),
        ("body", .list (Stmt.outlines body))]
  | .return keyword none =>
    .node "return" [("keyword", .lexeme keyword.lexeme), ("value", .absent)]
  | .return keyword (some value) =>
    .node "return" [("keyword", .lexeme keyword.lexeme), ("value", value.outline)]
  | .class name methods =>
    .node "class" [("name", .lexeme name.lexeme), ("methods", .list (Stmt.outlines methods))]
  | .misplaced inner => inner.outline
  | .unknown kind => .node kind []

def Stmt.outlines : List Stmt → List Outline
  | [] => []
  | s :: ss => s.outline :: Stmt.outlines ss

end

/-- Statements as plain data. -/
def Outline.ofStatements (ss : List Stmt) : Outline := list (ss.map Stmt.outline)

theorem Expr.outlines_eq_map (es : List Expr) : Expr.outlines es = es.map Expr.outline := by
  induction es with
  | nil => rfl
  | cons e es ih => rw [Expr.outlines, ih, List.map_cons]

theorem Stmt.outlines_eq_map (ss : List Stmt) : Stmt.outlines ss = ss.map Stmt.outline := by
  induction ss with
  | nil => rfl
  | cons s ss ih => rw [Stmt.outlines, ih, List.map_cons]

end Lox
