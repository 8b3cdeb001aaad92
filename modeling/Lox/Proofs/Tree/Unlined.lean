import Lox.Tree.Cursor

/-! Trees without the lines of their tokens. Two texts with the same tokens on other lines have the same trees
when their lines are left out. -/

namespace Lox

/-- A token with its line left out. -/
def Token.unlined (t : Token) : Token := { t with line := 0 }

namespace Token

@[simp] theorem unlined_kind (t : Token) : t.unlined.kind = t.kind := rfl

@[simp] theorem unlined_lexeme (t : Token) : t.unlined.lexeme = t.lexeme := rfl

end Token

mutual

def Expr.unlined : Expr → Expr
  | .literal value => .literal value
  | .grouping inner => .grouping inner.unlined
  | .unary operator right => .unary operator.unlined right.unlined
  | .binary left operator right => .binary left.unlined operator.unlined right.unlined
  | .variable name => .variable name.unlined
  | .assign name value => .assign name.unlined value.unlined
  | .get object name => .get object.unlined name.unlined
  | .set object name value => .set object.unlined name.unlined value.unlined
  | .call callee paren arguments => .call callee.unlined paren.unlined (Expr.unlinedEach arguments)
  | .this keyword => .this keyword.unlined
  | .misplaced statement => .misplaced statement.unlined
  | .unknown kind => .unknown kind

def Expr.unlinedEach : List Expr → List Expr
  | [] => []
  | e :: es => e.unlined :: Expr.unlinedEach es

def Stmt.unlined : Stmt → Stmt
  | .expression inner => .expression inner.unlined
  | .print inner => .print inner.unlined
  | .var name none => .var name.unlined none
  | .var name (some value) => .var name.unlined (some value.unlined)
  | .block statements => .block (Stmt.unlinedEach statements)
  | .branch condition whenTrue none => .branch condition.unlined whenTrue.unlined none
  | .branch condition whenTrue (some whenFalse) =>
    .branch condition.unlined whenTrue.unlined (some whenFalse.unlined)
  | .while condition body => .while condition.unlined body.unlined
  | .function name params body =>
    .function name.unlined (params.map Token.unlined) (Stmt.unlinedEach body)
  | .return keyword none => .return keyword.unlined none
  | .return keyword (some value) => .return keyword.unlined (some value.unlined)
  | .class name methods => .class name.unlined (Stmt.unlinedEach methods)
  | .misplaced inner => .misplaced inner.unlined
  | .unknown kind => .unknown kind

def Stmt.unlinedEach : List Stmt → List Stmt
  | [] => []
  | s :: ss => s.unlined :: Stmt.unlinedEach ss

end

theorem Expr.unlinedEach_eq_map (es : List Expr) : Expr.unlinedEach es = es.map Expr.unlined := by
  induction es with
  | nil => rfl
  | cons e es ih => rw [Expr.unlinedEach, ih, List.map_cons]

theorem Stmt.unlinedEach_eq_map (ss : List Stmt) : Stmt.unlinedEach ss = ss.map Stmt.unlined := by
  induction ss with
  | nil => rfl
  | cons s ss ih => rw [Stmt.unlinedEach, ih, List.map_cons]

/-! The lists and options in trees -/

namespace Stmt

theorem unlined_branch (c : Expr) (s : Stmt) (o : Option Stmt) :
    (branch c s o).unlined = branch c.unlined s.unlined (o.map unlined) := by cases o <;> rfl

theorem unlined_return (keyword : Token) (o : Option Expr) :
    («return» keyword o).unlined = «return» keyword.unlined (o.map Expr.unlined) := by cases o <;> rfl

theorem unlined_block (ss : List Stmt) : (block ss).unlined = block (ss.map unlined) := by
  rw [unlined, unlinedEach_eq_map]

theorem unlined_function (name : Token) (params : List Token) (body : List Stmt) :
    (function name params body).unlined =
      function name.unlined (params.map Token.unlined) (body.map unlined) := by
  rw [unlined, unlinedEach_eq_map]

theorem unlined_class (name : Token) (ss : List Stmt) :
    («class» name ss).unlined = «class» name.unlined (ss.map unlined) := by
  rw [unlined, unlinedEach_eq_map]

end Stmt

theorem Expr.unlined_call (f : Expr) (paren : Token) (es : List Expr) :
    (call f paren es).unlined = call f.unlined paren.unlined (es.map unlined) := by
  rw [unlined, unlinedEach_eq_map]

mutual

theorem Expr.kind_unlined : ∀ e : Expr, e.unlined.kind = e.kind
  | .misplaced s => Stmt.kind_unlined s
  | .literal _ | .grouping _ | .unary .. | .binary .. | .variable _ | .assign .. | .get .. | .set ..
  | .call .. | .this _ | .unknown _ => rfl

theorem Stmt.kind_unlined : ∀ s : Stmt, s.unlined.kind = s.kind
  | .misplaced e => Expr.kind_unlined e
  | .var _ o => by cases o <;> rfl
  | .branch _ _ o => by cases o <;> rfl
  | .return _ o => by cases o <;> rfl
  | .expression _ | .print _ | .block _ | .while .. | .function .. | .class .. | .unknown _ => rfl

end

def Declaration.unlined (d : Declaration) : Declaration :=
  ⟨d.name.unlined, d.params.map Token.unlined, d.body.map Stmt.unlined⟩

theorem Stmt.declaration?_unlined (s : Stmt) : s.unlined.declaration? = s.declaration?.map Declaration.unlined := by
  cases s with
  | function name params body => rw [unlined_function]; rfl
  | var name o => cases o <;> rfl
  | branch c s o => cases o <;> rfl
  | «return» k o => cases o <;> rfl
  | misplaced e => cases e <;> rfl
  | _ => rfl

/-! What is said of a place in the text -/

def Diagnostic.unlined : Diagnostic → Diagnostic
  | source _ place message => source 0 place message
  | runtime _ message => runtime 0 message

theorem Diagnostic.isRuntime_unlined (d : Diagnostic) : d.unlined.isRuntime = d.isRuntime := by
  cases d <;> rfl

def ParseError.unlined (e : ParseError) : ParseError := ⟨e.place.map Token.unlined, e.problem⟩

theorem ParseError.unlined_diagnostic (e : ParseError) (line line' : Int) :
    (e.diagnostic line).unlined = (e.unlined.diagnostic line').unlined := by
  obtain ⟨place, problem⟩ := e
  cases place with
  | nil => rfl
  | cons t ts => rfl

end Lox
