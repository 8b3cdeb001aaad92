import Lox.Tree.Outline

/-! Equality of trees as a program can observe it: node by node, with all fields of their tokens. It is
coarser than identity on constants, where signed zeros agree and no not-a-number equals itself. Outlines
are compared as the plain data that they are, by the same equality of constants. -/

namespace Lox

def sameTokens : List Token → List Token → Bool
  | [], [] => true
  | t :: ts, u :: us => t.same u && sameTokens ts us
  | _, _ => false

mutual

def Expr.same : Expr → Expr → Bool
  | .literal a, .literal b => a.same b
  | .grouping a, .grouping b => a.same b
  | .unary o a, .unary p b => o.same p && a.same b
  | .binary a o c, .binary b p d => a.same b && o.same p && c.same d
  | .variable n, .variable m => n.same m
  | .assign n a, .assign m b => n.same m && a.same b
  | .get a n, .get b m => a.same b && n.same m
  | .set a n c, .set b m d => a.same b && n.same m && c.same d
  | .call a p as, .call b q bs => a.same b && p.same q && Expr.sameAll as bs
  | .this k, .this l => k.same l
  | .misplaced s, .misplaced t => s.same t
  | _, _ => false

def Expr.sameAll : List Expr → List Expr → Bool
  | [], [] => true
  | a :: as, b :: bs => a.same b && Expr.sameAll as bs
  | _, _ => false

def Stmt.same : Stmt → Stmt → Bool
  | .expression a, .expression b => a.same b
  | .print a, .print b => a.same b
  | .var n none, .var m none => n.same m
  | .var n (some a), .var m (some b) => n.same m && a.same b
  | .block ss, .block ts => Stmt.sameAll ss ts
  | .branch a s none, .branch b t none => a.same b && s.same t
  | .branch a s (some u), .branch b t (some v) => a.same b && s.same t && u.same v
  | .while a s, .while b t => a.same b && s.same t
  | .function n ps ss, .function m qs ts => n.same m && sameTokens ps qs && Stmt.sameAll ss ts
  | .return k none, .return l none => k.same l
  | .return k (some a), .return l (some b) => k.same l && a.same b
  | .class n ss, .class m ts => n.same m && Stmt.sameAll ss ts
  | .misplaced a, .misplaced b => a.same b
  | _, _ => false

def Stmt.sameAll : List Stmt → List Stmt → Bool
  | [], [] => true
  | s :: ss, t :: ts => s.same t && Stmt.sameAll ss ts
  | _, _ => false

end

namespace Outline

/-- What stands for neither a list nor a node, as a constant. A lexeme is a string. -/
def constant? : Outline → Option Literal
  | absent => some .nil
  | constant value => some value
  | lexeme text => some (.string text)
  | list _ | node _ _ => none

mutual

def same : Outline → Outline → Bool
  | list os, list ps => sameItems os ps
  | node kind fields, node kind' fields' => kind == kind' && sameFields fields fields'
  | o, p =>
    match o.constant?, p.constant? with
    | some a, some b => a.same b
    | _, _ => false

def sameItems : List Outline → List Outline → Bool
  | [], [] => true
  | o :: os, p :: ps => o.same p && sameItems os ps
  | _, _ => false

def sameFields : List (String × Outline) → List (String × Outline) → Bool
  | [], [] => true
  | (name, o) :: fields, (name', p) :: fields' => name == name' && o.same p && sameFields fields fields'
  | _, _ => false

end

end Outline

end Lox
