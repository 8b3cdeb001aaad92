import Lox.Proofs.Grammar.Completeness

/-! Trees written back as tokens. A tree holds its names, its operators and some of its marks and keywords; the rest
is made up, and no parentheses are added. -/

namespace Lox

/-- The text of the marks and reserved words that a tree does not hold. -/
def TokenKind.spelling : TokenKind → String
  | leftParen => "("
  | rightParen => ")"
  | leftBrace => "\x7b"
  | rightBrace => "\x7d"
  | comma => ","
  | dot => "."
  | semicolon => ";"
  | equal => "="
  | kind => ((words.find? (·.2 = kind)).map Prod.fst).getD ""

/-- A token that is made up. -/
def made (kind : TokenKind) : Token := ⟨kind, kind.spelling, .nil, 1⟩

def Terminal.made (kind : TokenKind) : Terminal [kind] := ⟨Lox.made kind, List.mem_singleton_self kind⟩

/-- A constant as a token. -/
def Literal.terminal : Literal → Terminal [.kwTrue, .kwFalse, .kwNil, .number, .string]
  | nil => ⟨made .kwNil, by decide⟩
  | bool true => ⟨made .kwTrue, by decide⟩
  | bool false => ⟨made .kwFalse, by decide⟩
  | number x => ⟨⟨.number, Number.written x, .number x, 1⟩, by simp⟩
  | string s => ⟨⟨.string, Text.quoted s, .string s, 1⟩, by simp⟩

/-- Entries with commas between them. -/
def commas : List (List Token) → List Token
  | [] => []
  | [ts] => ts
  | ts :: entries => ts ++ made .comma :: commas entries

mutual

def Expr.unparse : Expr → List Token
  | .literal value => [value.terminal.1]
  | .grouping inner => made .leftParen :: (inner.unparse ++ [made .rightParen])
  | .unary operator right => operator :: right.unparse
  | .binary left operator right => left.unparse ++ operator :: right.unparse
  | .variable name => [name]
  | .assign name value => name :: made .equal :: value.unparse
  | .get object name => object.unparse ++ [made .dot, name]
  | .set object name value => object.unparse ++ made .dot :: name :: made .equal :: value.unparse
  | .call callee paren arguments =>
    callee.unparse ++ made .leftParen :: (commas (Expr.unparseEach arguments) ++ [paren])
  | .this keyword => [keyword]
  | .misplaced _ | .unknown _ => []

def Expr.unparseEach : List Expr → List (List Token)
  | [] => []
  | e :: es => e.unparse :: Expr.unparseEach es

end

/-- A function from its name on, as it stands in a class. -/
def unparseFunction (name : Token) (params : List Token) (body : List Token) : List Token :=
  name :: made .leftParen :: (commas (params.map fun p => [p]) ++
    made .rightParen :: made .leftBrace :: (body ++ [made .rightBrace]))

mutual

def Stmt.unparse : Stmt → List Token
  | .expression inner => inner.unparse ++ [made .semicolon]
  | .print inner => made .kwPrint :: (inner.unparse ++ [made .semicolon])
  | .var name none => [made .kwVar, name, made .semicolon]
  | .var name (some value) =>
    made .kwVar :: name :: made .equal :: (value.unparse ++ [made .semicolon])
  | .block statements =>
    made .leftBrace :: ((Stmt.unparseEach statements).flatten ++ [made .rightBrace])
  | .branch condition whenTrue none =>
    made .kwIf :: made .leftParen :: (condition.unparse ++ made .rightParen :: whenTrue.unparse)
  | .branch condition whenTrue (some whenFalse) =>
    made .kwIf :: made .leftParen :: (condition.unparse ++
      made .rightParen :: (whenTrue.unparse ++ made .kwElse :: whenFalse.unparse))
  | .while condition body =>
    made .kwWhile :: made .leftParen :: (condition.unparse ++ made .rightParen :: body.unparse)
  | .function name params body =>
    made .kwFun :: unparseFunction name params (Stmt.unparseEach body).flatten
  | .return keyword none => [keyword, made .semicolon]
  | .return keyword (some value) => keyword :: (value.unparse ++ [made .semicolon])
  | .class name methods =>
    made .kwClass :: name :: made .leftBrace ::
      (((Stmt.unparseEach methods).map List.tail).flatten ++ [made .rightBrace])
  | .misplaced _ | .unknown _ => []

def Stmt.unparseEach : List Stmt → List (List Token)
  | [] => []
  | s :: ss => s.unparse :: Stmt.unparseEach ss

end

/-- A program as tokens. -/
def Stmt.unparseAll (ss : List Stmt) : List Token := (Stmt.unparseEach ss).flatten

mutual

/-- What there is to say about the lists of arguments in a tree, from the inside out and from left to right. -/
def Expr.oversized : Expr → List Diagnostic
  | .literal _ | .variable _ | .this _ | .misplaced _ | .unknown _ => []
  | .grouping inner => inner.oversized
  | .unary _ right => right.oversized
  | .binary left _ right => left.oversized ++ right.oversized
  | .assign _ value => value.oversized
  | .get object _ => object.oversized
  | .set object _ value => object.oversized ++ value.oversized
  | .call callee paren arguments => callee.oversized ++ Expr.oversizedAll arguments ++
      Derivation.overlong arguments.length "arguments" paren

def Expr.oversizedAll : List Expr → List Diagnostic
  | [] => []
  | e :: es => e.oversized ++ Expr.oversizedAll es

end

mutual

/-- What there is to say about the lists of arguments and of parameters in a tree. -/
def Stmt.oversized : Stmt → List Diagnostic
  | .expression inner | .print inner | .var _ (some inner) | .return _ (some inner) => inner.oversized
  | .var _ none | .return _ none | .misplaced _ | .unknown _ => []
  | .block statements => Stmt.oversizedAll statements
  | .branch condition whenTrue none => condition.oversized ++ whenTrue.oversized
  | .branch condition whenTrue (some whenFalse) =>
    condition.oversized ++ whenTrue.oversized ++ whenFalse.oversized
  | .while condition body => condition.oversized ++ body.oversized
  | .function _ params body =>
    Derivation.overlong params.length "parameters" (made .rightParen) ++ Stmt.oversizedAll body
  | .class _ methods => Stmt.oversizedAll methods

def Stmt.oversizedAll : List Stmt → List Diagnostic
  | [] => []
  | s :: ss => s.oversized ++ Stmt.oversizedAll ss

end

theorem Expr.unparseEach_eq_map (es : List Expr) : Expr.unparseEach es = es.map Expr.unparse := by
  induction es with
  | nil => rfl
  | cons e es ih => rw [Expr.unparseEach, ih, List.map_cons]

theorem Stmt.unparseEach_eq_map (ss : List Stmt) : Stmt.unparseEach ss = ss.map Stmt.unparse := by
  induction ss with
  | nil => rfl
  | cons s ss ih => rw [Stmt.unparseEach, ih, List.map_cons]

theorem Expr.oversizedAll_eq_flatMap (es : List Expr) : Expr.oversizedAll es = es.flatMap Expr.oversized := by
  induction es with
  | nil => rfl
  | cons e es ih => rw [Expr.oversizedAll, ih, List.flatMap_cons]

theorem Stmt.oversizedAll_eq_flatMap (ss : List Stmt) : Stmt.oversizedAll ss = ss.flatMap Stmt.oversized := by
  induction ss with
  | nil => rfl
  | cons s ss ih => rw [Stmt.oversizedAll, ih, List.flatMap_cons]

namespace Phrase

/-- What stands for a phrase is written as its tree is, and as the phrase asks. -/
def unparse : (q : Phrase) → q.Tree → List Token
  | name, t => [t]
  | primary, e | call, e | unary, e | level _, e | expression, e => Expr.unparse e
  | initializer, e => made .equal :: Expr.unparse e
  | optional _, none => []
  | optional p, some a => p.unparse a
  | list p, as => commas (as.map p.unparse)
  | many p, as => (as.map p.unparse).flatten
  | exprStatement, s | varDeclaration, s | statement, s | declaration, s => Stmt.unparse s
  | alternative, s => made .kwElse :: Stmt.unparse s
  | function, s => (Stmt.unparse s).tail
  | loopStart, none => [made .semicolon]
  | loopStart, some s => Stmt.unparse s
  | block, ss => Stmt.unparse (.block ss)

/-- What there is to say about the lists in what stands for a phrase. -/
def oversized : (q : Phrase) → q.Tree → List Diagnostic
  | name, _ => []
  | primary, e | call, e | unary, e | level _, e | expression, e | initializer, e => Expr.oversized e
  | optional _, none => []
  | optional p, some a => p.oversized a
  | list p, as | many p, as => as.flatMap p.oversized
  | exprStatement, s | varDeclaration, s | statement, s | declaration, s | alternative, s | function, s =>
    Stmt.oversized s
  | loopStart, none => []
  | loopStart, some s => Stmt.oversized s
  | block, ss => Stmt.oversized (.block ss)

end Phrase

end Lox
