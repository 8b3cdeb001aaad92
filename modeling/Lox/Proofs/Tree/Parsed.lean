import Lox.Proofs.Tree.Formed

/-! The trees that parsers build, with every token they hold. Beside what evaluation asks of a tree, the operators
and the tokens that are kept to report errors are of their kinds, and `P` is known of all of them. -/

namespace Lox

/-- Whether a constant that is a number stands in a token of which `P` holds. -/
def Literal.IsRead (P : Token → Prop) (value : Literal) : Prop :=
  ∀ x, value = .number x → ∃ t : Token, P t ∧ t.literal = .number x

theorem Literal.isRead_nil (P : Token → Prop) : Literal.nil.IsRead P := fun _ h => by cases h

theorem Literal.isRead_bool (P : Token → Prop) (b : Bool) : (Literal.bool b).IsRead P := fun _ h => by cases h

inductive Expr.Parsed (P : Token → Prop) : Expr → Prop where
  | literal {value : Literal} : value.IsRead P → Parsed P (.literal value)
  | grouping {inner : Expr} : Parsed P inner → Parsed P (.grouping inner)
  | unary {operator : Token} {right : Expr} : operator.kind ∈ [.bang, .minus] → P operator →
      Parsed P right → Parsed P (.unary operator right)
  | binary {left : Expr} {operator : Token} {right : Expr} :
      operator.kind ∈ Parser.binaryLevels.flatten → P operator → Parsed P left → Parsed P right →
        Parsed P (.binary left operator right)
  | variable {name : Token} : name.IsName P → Parsed P (.variable name)
  | assign {name : Token} {value : Expr} : name.IsName P → Parsed P value → Parsed P (.assign name value)
  | get {object : Expr} {name : Token} : name.IsName P → Parsed P object → Parsed P (.get object name)
  | set {object : Expr} {name : Token} {value : Expr} : name.IsName P → Parsed P object →
      Parsed P value → Parsed P (.set object name value)
  | call {callee : Expr} {paren : Token} {arguments : List Expr} : Parsed P callee →
      paren.kind = .rightParen → P paren → (∀ e ∈ arguments, Parsed P e) →
        Parsed P (.call callee paren arguments)
  | this {keyword : Token} : keyword.kind = .kwThis → P keyword → Parsed P (.this keyword)

inductive Stmt.Parsed (P : Token → Prop) : Stmt → Prop where
  | expression {inner : Expr} : inner.Parsed P → Parsed P (.expression inner)
  | print {inner : Expr} : inner.Parsed P → Parsed P (.print inner)
  | var {name : Token} {initializer : Option Expr} : name.IsName P →
      (∀ e ∈ initializer, e.Parsed P) → Parsed P (.var name initializer)
  | block {statements : List Stmt} : (∀ s ∈ statements, Parsed P s) → Parsed P (.block statements)
  | branch {condition : Expr} {whenTrue : Stmt} {whenFalse : Option Stmt} : condition.Parsed P →
      Parsed P whenTrue → whenTrue.declares = [] → (∀ s ∈ whenFalse, Parsed P s) →
        (∀ s ∈ whenFalse, s.declares = []) → Parsed P (.branch condition whenTrue whenFalse)
  | while {condition : Expr} {body : Stmt} : condition.Parsed P → Parsed P body → body.declares = [] →
      Parsed P (.while condition body)
  | function {name : Token} {params : List Token} {body : List Stmt} : name.IsName P →
      (∀ p ∈ params, p.IsName P) → (∀ s ∈ body, Parsed P s) → Parsed P (.function name params body)
  | return {keyword : Token} {value : Option Expr} : keyword.kind = .kwReturn → P keyword →
      (∀ e ∈ value, e.Parsed P) → Parsed P (.return keyword value)
  | class {name : Token} {methods : List Stmt} : name.IsName P → (∀ s ∈ methods, Parsed P s) →
      (∀ s ∈ methods, ∃ d : Declaration, s = d.statement) → Parsed P (.class name methods)

variable {P : Token → Prop}

theorem Expr.Parsed.formed {e : Expr} (h : e.Parsed P) : e.Formed P := by
  induction h with
  | @literal value _ => exact .literal value
  | grouping _ ih => exact .grouping ih
  | unary hk _ _ ih => exact .unary hk ih
  | binary hk _ _ _ ihl ihr => exact .binary hk ihl ihr
  | «variable» hn => exact .variable hn
  | assign hn _ ih => exact .assign hn ih
  | get hn _ ih => exact .get hn ih
  | set hn _ _ iho ihv => exact .set hn iho ihv
  | @call _ paren _ _ _ _ _ ihc ihes => exact .call paren ihc ihes
  | this hk hp => exact .this hk hp

theorem Stmt.Parsed.formed {s : Stmt} (h : s.Parsed P) : s.Formed P := by
  induction h with
  | expression hi => exact .expression hi.formed
  | print hi => exact .print hi.formed
  | var hn he => exact .var hn fun e h => (he e h).formed
  | block _ ih => exact .block ih
  | branch hc _ hd _ hds iht ihf => exact .branch hc.formed iht hd ihf hds
  | «while» hc _ hd ih => exact .while hc.formed ih hd
  | function hn hp _ ih => exact .function hn hp ih
  | @«return» keyword _ _ _ hv => exact .return keyword fun e h => (hv e h).formed
  | «class» hn _ hd ih => exact .class hn ih hd

end Lox
