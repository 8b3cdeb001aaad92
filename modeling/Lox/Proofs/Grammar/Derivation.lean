import Lox.Tree.Parser

/-! The grammar, as the type of its derivations. A derivation holds every token of its sentence, so
`tokens` reads the sentence off and `value` the tree it stands for. The grammar is relaxed: anything may
stand before the `=` of an assignment and lists may have any length. `Strict` picks out the derivations
that keep to the rules, and `diagnostics` lists what is to be said about the others. -/

namespace Lox

/-- The binary operators, from the level that binds loosest. -/
def operatorLevels : List (List TokenKind) :=
  [[.kwOr], [.kwAnd], [.bangEqual, .equalEqual], [.greater, .greaterEqual, .less, .lessEqual],
    [.minus, .plus], [.slash, .star]]

/-- The kinds of phrase. `level` is a binary level with the tighter ones behind it, `optional`, `list` and
`many` are `p?`, `p ("," p)*` and `p*`. -/
inductive Phrase where
  | name
  | primary
  | call
  | unary
  | level (levels : List (List TokenKind))
  | expression
  | initializer
  | optional (p : Phrase)
  | list (p : Phrase)
  | many (p : Phrase)
  | exprStatement
  | varDeclaration
  | loopStart
  | block
  | alternative
  | statement
  | function
  | declaration

/-- What a phrase stands for. -/
@[reducible] def Phrase.Tree : Phrase → Type
  | name => Token
  | primary | call | unary | level _ | expression | initializer => Expr
  | optional p => Option p.Tree
  | list p | many p => List p.Tree
  | exprStatement | varDeclaration | alternative | statement | function | declaration => Stmt
  | loopStart => Option Stmt
  | block => List Stmt

abbrev Terminal (kinds : List TokenKind) := { t : Token // t.kind ∈ kinds }

/-- Each constructor is a production. Chains of operators, calls and properties grow to the left. -/
inductive Derivation : Phrase → Type where
  | name (t : Terminal [.identifier]) : Derivation .name
  | constant (t : Terminal [.kwTrue, .kwFalse, .kwNil, .number, .string]) : Derivation .primary
  | this (t : Terminal [.kwThis]) : Derivation .primary
  | identifier (t : Terminal [.identifier]) : Derivation .primary
  | grouping (left : Terminal [.leftParen]) (inner : Derivation .expression)
      (right : Terminal [.rightParen]) : Derivation .primary
  | operand (d : Derivation .primary) : Derivation .call
  | application (callee : Derivation .call) (left : Terminal [.leftParen])
      (arguments : Derivation (.optional (.list .expression))) (right : Terminal [.rightParen]) :
      Derivation .call
  | property (object : Derivation .call) (dot : Terminal [.dot]) (name : Terminal [.identifier]) :
      Derivation .call
  | bare (d : Derivation .call) : Derivation .unary
  | sign (operator : Terminal [.bang, .minus]) (right : Derivation .unary) : Derivation .unary
  | tightest (d : Derivation .unary) : Derivation (.level [])
  | single {ops : List TokenKind} {rest : List (List TokenKind)} (d : Derivation (.level rest)) :
      Derivation (.level (ops :: rest))
  | operation {ops : List TokenKind} {rest : List (List TokenKind)}
      (left : Derivation (.level (ops :: rest))) (operator : Terminal ops)
      (right : Derivation (.level rest)) : Derivation (.level (ops :: rest))
  | plain (d : Derivation (.level operatorLevels)) : Derivation .expression
  | assignment (target : Derivation (.level operatorLevels)) (equals : Terminal [.equal])
      (value : Derivation .expression) : Derivation .expression
  | initializer (equals : Terminal [.equal]) (value : Derivation .expression) : Derivation .initializer
  | absent {p : Phrase} : Derivation (.optional p)
  | present {p : Phrase} (d : Derivation p) : Derivation (.optional p)
  | last {p : Phrase} (d : Derivation p) : Derivation (.list p)
  | more {p : Phrase} (d : Derivation p) (comma : Terminal [.comma]) (rest : Derivation (.list p)) :
      Derivation (.list p)
  | nothing {p : Phrase} : Derivation (.many p)
  | next {p : Phrase} (d : Derivation p) (rest : Derivation (.many p)) : Derivation (.many p)
  | exprStatement (inner : Derivation .expression) (semicolon : Terminal [.semicolon]) :
      Derivation .exprStatement
  | varDeclaration (keyword : Terminal [.kwVar]) (name : Terminal [.identifier])
      (init : Derivation (.optional .initializer)) (semicolon : Terminal [.semicolon]) :
      Derivation .varDeclaration
  | startVariable (d : Derivation .varDeclaration) : Derivation .loopStart
  | startExpression (d : Derivation .exprStatement) : Derivation .loopStart
  | startNothing (semicolon : Terminal [.semicolon]) : Derivation .loopStart
  | block (left : Terminal [.leftBrace]) (statements : Derivation (.many .declaration))
      (right : Terminal [.rightBrace]) : Derivation .block
  | alternative (keyword : Terminal [.kwElse]) (d : Derivation .statement) : Derivation .alternative
  | expression (d : Derivation .exprStatement) : Derivation .statement
  | print (keyword : Terminal [.kwPrint]) (inner : Derivation .expression)
      (semicolon : Terminal [.semicolon]) : Derivation .statement
  | returning (keyword : Terminal [.kwReturn]) (value : Derivation (.optional .expression))
      (semicolon : Terminal [.semicolon]) : Derivation .statement
  | nested (d : Derivation .block) : Derivation .statement
  | branch (keyword : Terminal [.kwIf]) (left : Terminal [.leftParen])
      (condition : Derivation .expression) (right : Terminal [.rightParen])
      (whenTrue : Derivation .statement) (whenFalse : Derivation (.optional .alternative)) :
      Derivation .statement
  | whileLoop (keyword : Terminal [.kwWhile]) (left : Terminal [.leftParen])
      (condition : Derivation .expression) (right : Terminal [.rightParen])
      (body : Derivation .statement) : Derivation .statement
  | forLoop (keyword : Terminal [.kwFor]) (left : Terminal [.leftParen]) (start : Derivation .loopStart)
      (condition : Derivation (.optional .expression)) (semicolon : Terminal [.semicolon])
      (increment : Derivation (.optional .expression)) (right : Terminal [.rightParen])
      (body : Derivation .statement) : Derivation .statement
  | function (name : Terminal [.identifier]) (left : Terminal [.leftParen])
      (params : Derivation (.optional (.list .name))) (right : Terminal [.rightParen])
      (body : Derivation .block) : Derivation .function
  | statement (d : Derivation .statement) : Derivation .declaration
  | variable (d : Derivation .varDeclaration) : Derivation .declaration
  | funDeclaration (keyword : Terminal [.kwFun]) (d : Derivation .function) : Derivation .declaration
  | classDeclaration (keyword : Terminal [.kwClass]) (name : Terminal [.identifier])
      (left : Terminal [.leftBrace]) (methods : Derivation (.many .function))
      (right : Terminal [.rightBrace]) : Derivation .declaration

namespace Derivation

variable {p : Phrase}

/-- The sentence, each token once and in order. -/
def tokens {p : Phrase} : Derivation p → List Token
  | name t | constant t | this t | identifier t | startNothing t => [t.1]
  | operand d | bare d | tightest d | single d | plain d | present d | last d | startVariable d
  | startExpression d | expression d | nested d | statement d | .variable d => d.tokens
  | application f l ds r => f.tokens ++ l.1 :: (ds.tokens ++ [r.1])
  | property o dot n => o.tokens ++ [dot.1, n.1]
  | sign t d | initializer t d | alternative t d | funDeclaration t d => t.1 :: d.tokens
  | operation d t e | assignment d t e | more d t e => d.tokens ++ t.1 :: e.tokens
  | absent | nothing => []
  | next d ds => d.tokens ++ ds.tokens
  | exprStatement d t => d.tokens ++ [t.1]
  | varDeclaration k n d t => k.1 :: n.1 :: (d.tokens ++ [t.1])
  | grouping k d t | block k d t | print k d t | returning k d t => k.1 :: (d.tokens ++ [t.1])
  | branch k l c r t f => k.1 :: l.1 :: (c.tokens ++ r.1 :: (t.tokens ++ f.tokens))
  | whileLoop k l c r b => k.1 :: l.1 :: (c.tokens ++ r.1 :: b.tokens)
  | forLoop k l s c t i r b =>
    k.1 :: l.1 :: (s.tokens ++ (c.tokens ++ t.1 :: (i.tokens ++ r.1 :: b.tokens)))
  | function n l ps r b => n.1 :: l.1 :: (ps.tokens ++ r.1 :: b.tokens)
  | classDeclaration k n l ms r => k.1 :: n.1 :: l.1 :: (ms.tokens ++ [r.1])

/-- The constant that a token of a constant stands for. -/
def constantOf (t : Token) : Literal :=
  match t.kind with
  | .kwTrue => .bool true
  | .kwFalse => .bool false
  | .kwNil => .nil
  | _ => t.literal

/-- `while (condition) { body; increment; }`, without the block if there is no increment. -/
def loopOf (condition increment : Option Expr) (body : Stmt) : Stmt :=
  match increment with
  | some e => .while (condition.getD (.literal (.bool true))) (.block [body, .expression e])
  | none => .while (condition.getD (.literal (.bool true))) body

/-- A loop behind what it starts with, in a block for both. -/
def startedBy : Option Stmt → Stmt → Stmt
  | some start, loop => .block [start, loop]
  | none, loop => loop

/-- An assignment to what `target` stands for. What cannot be assigned to is left alone. -/
def assigned (target value : Expr) : Expr :=
  match target with
  | .variable n => .assign n value
  | .get object n => .set object n value
  | _ => target

/-- The tree of a derivation. -/
def value {p : Phrase} : Derivation p → p.Tree
  | name t => t.1
  | constant t => .literal (constantOf t)
  | this t => .this t
  | identifier t => .variable t
  | grouping _ d _ => .grouping d.value
  | operand d | bare d | tightest d | single d | plain d => d.value
  | application f _ ds r => .call f.value r (ds.value.getD [])
  | property o _ n => .get o.value n
  | sign t d => .unary t d.value
  | operation l t r => .binary l.value t r.value
  | assignment l _ r => assigned l.value r.value
  | initializer _ d => d.value
  | absent => none
  | present d => some d.value
  | last d => [d.value]
  | nothing => []
  | more d _ e | next d e => d.value :: e.value
  | exprStatement d _ => .expression d.value
  | varDeclaration _ n d _ => .var n d.value
  | startVariable d | startExpression d => some d.value
  | startNothing _ => none
  | block _ ds _ => ds.value
  | alternative _ d => d.value
  | expression d => d.value
  | print _ d _ => .print d.value
  | returning k d _ => .return k d.value
  | nested d => .block d.value
  | branch _ _ c _ t f => .branch c.value t.value f.value
  | whileLoop _ _ c _ b => .while c.value b.value
  | forLoop _ _ s c _ i _ b => startedBy s.value (loopOf c.value i.value b.value)
  | function n _ ps _ b => .function n (ps.value.getD []) b.value
  | statement d | .variable d => d.value
  | funDeclaration _ d => d.value
  | classDeclaration _ n _ ms _ => .class n ms.value

/-- Whether an expression is a name or ends in a property, and nothing stands around that. -/
def IsTarget {p : Phrase} : Derivation p → Prop
  | identifier _ | property .. => True
  | operand d | bare d | tightest d | single d => d.IsTarget
  | _ => False

/-- Only names and properties are assigned to, and all lists are shorter than 255. -/
def Strict {p : Phrase} : Derivation p → Prop
  | assignment l _ r => l.IsTarget ∧ l.Strict ∧ r.Strict
  | application f _ ds _ => f.Strict ∧ ds.Strict ∧ (ds.value.getD []).length < 255
  | function _ _ ps _ b => ps.Strict ∧ (ps.value.getD []).length < 255 ∧ b.Strict
  | grouping _ d _ | operand d | bare d | tightest d | single d | plain d | present d | last d
  | startVariable d | startExpression d | expression d | nested d | statement d | .variable d
  | property d _ _ | sign _ d | initializer _ d | alternative _ d | funDeclaration _ d
  | exprStatement d _ | varDeclaration _ _ d _ | block _ d _ | print _ d _ | returning _ d _
  | classDeclaration _ _ _ d _ => d.Strict
  | operation d _ e | more d _ e | next d e | whileLoop _ _ d _ e => d.Strict ∧ e.Strict
  | branch _ _ c _ t f => c.Strict ∧ t.Strict ∧ f.Strict
  | forLoop _ _ s c _ i _ b => s.Strict ∧ c.Strict ∧ i.Strict ∧ b.Strict
  | name _ | constant _ | this _ | identifier _ | startNothing _ | absent | nothing => True

/-- Whether a statement ends in an `if` that could still take an `else`. -/
def EndsOpen {p : Phrase} : Derivation p → Prop
  | branch _ _ _ _ _ absent => True
  | branch _ _ _ _ _ (present (alternative _ d)) => d.EndsOpen
  | whileLoop _ _ _ _ d | forLoop _ _ _ _ _ _ _ d | statement d => d.EndsOpen
  | _ => False

/-- Each `else` belongs to the nearest `if`: none stands behind a statement that could take it. -/
def NearestElse {p : Phrase} : Derivation p → Prop
  | branch _ _ c _ t absent => c.NearestElse ∧ t.NearestElse
  | branch _ _ c _ t (present (alternative _ d)) =>
    c.NearestElse ∧ t.NearestElse ∧ ¬ t.EndsOpen ∧ d.NearestElse
  | grouping _ d _ | operand d | bare d | tightest d | single d | plain d | present d | last d
  | startVariable d | startExpression d | expression d | nested d | statement d | .variable d
  | property d _ _ | sign _ d | initializer _ d | alternative _ d | funDeclaration _ d
  | exprStatement d _ | varDeclaration _ _ d _ | block _ d _ | print _ d _ | returning _ d _
  | classDeclaration _ _ _ d _ => d.NearestElse
  | application d _ e _ | operation d _ e | assignment d _ e | more d _ e | next d e
  | whileLoop _ _ d _ e | function _ _ d _ e => d.NearestElse ∧ e.NearestElse
  | forLoop _ _ s c _ i _ b => s.NearestElse ∧ c.NearestElse ∧ i.NearestElse ∧ b.NearestElse
  | name _ | constant _ | this _ | identifier _ | startNothing _ | absent | nothing => True

/-- What is said about a list with `n` entries at its closing parenthesis. -/
def overlong (n : Nat) (entries : String) (right : Token) : List Diagnostic :=
  if 255 ≤ n then [.atToken right s!"Can't have 255 or more {entries}."] else []

/-- What is said about an assignment to `target`. -/
def misassigned (target : Expr) (equals : Token) : List Diagnostic :=
  match target with
  | .variable _ | .get .. => []
  | _ => [.atToken equals "Invalid assignment target."]

/-- What breaks the rules of `Strict`, each in its place and in the order in which it is complete. -/
def diagnostics {p : Phrase} : Derivation p → List Diagnostic
  | assignment l t r => l.diagnostics ++ r.diagnostics ++ misassigned l.value t
  | application f _ ds r =>
    f.diagnostics ++ ds.diagnostics ++ overlong (ds.value.getD []).length "arguments" r
  | function _ _ ps r b =>
    ps.diagnostics ++ overlong (ps.value.getD []).length "parameters" r ++ b.diagnostics
  | grouping _ d _ | operand d | bare d | tightest d | single d | plain d | present d | last d
  | startVariable d | startExpression d | expression d | nested d | statement d | .variable d
  | property d _ _ | sign _ d | initializer _ d | alternative _ d | funDeclaration _ d
  | exprStatement d _ | varDeclaration _ _ d _ | block _ d _ | print _ d _ | returning _ d _
  | classDeclaration _ _ _ d _ => d.diagnostics
  | operation d _ e | more d _ e | next d e | whileLoop _ _ d _ e => d.diagnostics ++ e.diagnostics
  | branch _ _ c _ t f => c.diagnostics ++ t.diagnostics ++ f.diagnostics
  | forLoop _ _ s c _ i _ b => s.diagnostics ++ c.diagnostics ++ i.diagnostics ++ b.diagnostics
  | name _ | constant _ | this _ | identifier _ | startNothing _ | absent | nothing => []

/-- How deep a parser has to nest. Chains do not nest, signs, expressions, statements and declarations
do. -/
def nesting {p : Phrase} : Derivation p → Nat
  | bare d | plain d | expression d | nested d | statement d | .variable d | sign _ d | print _ d _
  | returning _ d _ | funDeclaration _ d | classDeclaration _ _ _ d _ => d.nesting + 1
  | assignment d _ e | whileLoop _ _ d _ e => max d.nesting e.nesting + 1
  | branch _ _ c _ t f => max c.nesting (max t.nesting f.nesting) + 1
  | forLoop _ _ s c _ i _ b => max s.nesting (max c.nesting (max i.nesting b.nesting)) + 1
  | grouping _ d _ | operand d | tightest d | single d | present d | last d | startVariable d
  | startExpression d | property d _ _ | initializer _ d | alternative _ d | exprStatement d _
  | varDeclaration _ _ d _ | block _ d _ => d.nesting
  | application d _ e _ | operation d _ e | more d _ e | next d e | function _ _ d _ e =>
    max d.nesting e.nesting
  | name _ | constant _ | this _ | identifier _ | startNothing _ | absent | nothing => 0

end Derivation

end Lox
