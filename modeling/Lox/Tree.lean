import Lox.Token

/-! Trees of expressions and statements. A parser builds every constructor but the last two of each
family: `misplaced` holds a node of the other family, `unknown` a node of some further kind. They
let a tree made by hand be printed, compared and refused at the place where it makes no sense. -/

namespace Lox

mutual

inductive Expr where
  | literal (value : Literal)
  | grouping (inner : Expr)
  | unary (operator : Token) (right : Expr)
  | binary (left : Expr) (operator : Token) (right : Expr)
  | variable (name : Token)
  | assign (name : Token) (value : Expr)
  | get (object : Expr) (name : Token)
  | set (object : Expr) (name : Token) (value : Expr)
  | call (callee : Expr) (paren : Token) (arguments : List Expr)
  | this (keyword : Token)
  | misplaced (statement : Stmt)
  | unknown (kind : String)

inductive Stmt where
  | expression (inner : Expr)
  | print (inner : Expr)
  | var (name : Token) (initializer : Option Expr)
  | block (statements : List Stmt)
  | branch (condition : Expr) (whenTrue : Stmt) (whenFalse : Option Stmt)
  | while (condition : Expr) (body : Stmt)
  | function (name : Token) (params : List Token) (body : List Stmt)
  | return (keyword : Token) (value : Option Expr)
  | class (name : Token) (methods : List Stmt)
  | misplaced (inner : Expr)
  | unknown (kind : String)

end

instance : Inhabited Expr := ⟨.literal .nil⟩

instance : Inhabited Stmt := ⟨.block []⟩

mutual

def Expr.kind : Expr → String
  | .literal .. => "literal"
  | .grouping .. => "grouping"
  | .unary .. => "unary"
  | .binary .. => "binary"
  | .variable .. => "variable"
  | .assign .. => "assign"
  | .get .. => "get"
  | .set .. => "set"
  | .call .. => "call"
  | .this .. => "this"
  | .misplaced s => s.kind
  | .unknown kind => kind

def Stmt.kind : Stmt → String
  | .expression .. => "expression"
  | .print .. => "print"
  | .var .. => "var"
  | .block .. => "block"
  | .branch .. => "if"
  | .while .. => "while"
  | .function .. => "function"
  | .return .. => "return"
  | .class .. => "class"
  | .misplaced e => e.kind
  | .unknown kind => kind

end

/-- What a function or a method was declared as. -/
structure Declaration where
  name : Token
  params : List Token
  body : List Stmt

def Expr.name? : Expr → Option Token
  | .variable name | .assign name _ | .get _ name | .set _ name _ => some name
  | _ => none

/-- What a node declares when it stands among the methods of a class. A node with a name that is no
function has nothing to run. -/
def Stmt.declaration? : Stmt → Option Declaration
  | .function name params body => some ⟨name, params, body⟩
  | .var name _ | .class name _ => some ⟨name, [], []⟩
  | .misplaced inner => inner.name?.map (⟨·, [], []⟩)
  | _ => none

def Declaration.statement (d : Declaration) : Stmt := .function d.name d.params d.body

end Lox
