import Lox.Tree.Parser

/-! The trees that parsers build. Names are identifiers, operators are such as the grammar has, methods are
functions, and what an `if` or a loop runs is no declaration. `P` is what is known of the tokens. -/

namespace Lox

/-- Whether a token is a name of which `P` holds. -/
def Token.IsName (P : Token → Prop) (t : Token) : Prop := t.kind = .identifier ∧ P t

/-- The texts of names. -/
def Names (P : Token → Prop) (name : String) : Prop := ∃ t : Token, t.IsName P ∧ t.lexeme = name

/-- The names that a statement declares in the scope it is executed in. -/
def Stmt.declares : Stmt → List String
  | .var name _ | .function name _ _ | .class name _ => [name.lexeme]
  | _ => []

inductive Expr.Formed (P : Token → Prop) : Expr → Prop where
  | literal (value : Literal) : Formed P (.literal value)
  | grouping {inner : Expr} : Formed P inner → Formed P (.grouping inner)
  | unary {operator : Token} {right : Expr} : operator.kind ∈ [.bang, .minus] → Formed P right →
      Formed P (.unary operator right)
  | binary {left : Expr} {operator : Token} {right : Expr} :
      operator.kind ∈ Parser.binaryLevels.flatten → Formed P left → Formed P right →
        Formed P (.binary left operator right)
  | variable {name : Token} : name.IsName P → Formed P (.variable name)
  | assign {name : Token} {value : Expr} : name.IsName P → Formed P value → Formed P (.assign name value)
  | get {object : Expr} {name : Token} : name.IsName P → Formed P object → Formed P (.get object name)
  | set {object : Expr} {name : Token} {value : Expr} : name.IsName P → Formed P object →
      Formed P value → Formed P (.set object name value)
  | call {callee : Expr} {arguments : List Expr} (paren : Token) : Formed P callee →
      (∀ e ∈ arguments, Formed P e) → Formed P (.call callee paren arguments)
  | this {keyword : Token} : keyword.kind = .kwThis → P keyword → Formed P (.this keyword)

inductive Stmt.Formed (P : Token → Prop) : Stmt → Prop where
  | expression {inner : Expr} : inner.Formed P → Formed P (.expression inner)
  | print {inner : Expr} : inner.Formed P → Formed P (.print inner)
  | var {name : Token} {initializer : Option Expr} : name.IsName P →
      (∀ e ∈ initializer, e.Formed P) → Formed P (.var name initializer)
  | block {statements : List Stmt} : (∀ s ∈ statements, Formed P s) → Formed P (.block statements)
  | branch {condition : Expr} {whenTrue : Stmt} {whenFalse : Option Stmt} : condition.Formed P →
      Formed P whenTrue → whenTrue.declares = [] → (∀ s ∈ whenFalse, Formed P s) →
        (∀ s ∈ whenFalse, s.declares = []) → Formed P (.branch condition whenTrue whenFalse)
  | while {condition : Expr} {body : Stmt} : condition.Formed P → Formed P body → body.declares = [] →
      Formed P (.while condition body)
  | function {name : Token} {params : List Token} {body : List Stmt} : name.IsName P →
      (∀ p ∈ params, p.IsName P) → (∀ s ∈ body, Formed P s) → Formed P (.function name params body)
  | return {value : Option Expr} (keyword : Token) : (∀ e ∈ value, e.Formed P) →
      Formed P (.return keyword value)
  | class {name : Token} {methods : List Stmt} : name.IsName P → (∀ s ∈ methods, Formed P s) →
      (∀ s ∈ methods, ∃ d : Declaration, s = d.statement) → Formed P (.class name methods)

/-- A function or a method that parsers build. -/
structure Declaration.Formed (P : Token → Prop) (d : Declaration) : Prop where
  name : d.name.IsName P
  params : ∀ p ∈ d.params, p.IsName P
  body : ∀ s ∈ d.body, s.Formed P

variable {P : Token → Prop}

theorem Declaration.formed_statement {d : Declaration} : d.statement.Formed P ↔ d.Formed P :=
  ⟨fun h => match h with | .function hn hp hb => ⟨hn, hp, hb⟩, fun h => .function h.name h.params h.body⟩

/-- A statement declares one name at most. -/
theorem Stmt.length_declares_le (s : Stmt) : s.declares.length ≤ 1 := by
  cases s <;> simp [Stmt.declares]

end Lox
