import Lox.Proofs.Grammar.Unparse

/-! Trees that can be written back. A derivation is canonical if its sentence is what its tree is written as, if
nothing is said of it but what its tree says of its lists, and if each `else` is at the nearest `if`. A tree
is regular if it has such a derivation, and every way to put trees together that the parser uses keeps them
regular. -/

namespace Lox
namespace Derivation

variable {q : Phrase}

structure Canonical (d : Derivation q) : Prop where
  tokens : d.tokens = q.unparse d.value
  diagnostics : d.diagnostics = q.oversized d.value
  nearestElse : d.NearestElse

end Derivation

namespace Phrase

variable {p q : Phrase} {n m : Nat}

/-- Whether a tree has a canonical derivation that nests at most `n` deep. -/
def Regular (q : Phrase) (n : Nat) (a : q.Tree) : Prop :=
  ∃ d : Derivation q, d.value = a ∧ d.Canonical ∧ d.nesting ≤ n

theorem Regular.mono {a : q.Tree} (h : q.Regular n a) (hn : n ≤ m) : q.Regular m a := by
  obtain ⟨d, hv, hd, hm⟩ := h
  exact ⟨d, hv, hd, Nat.le_trans hm hn⟩

/-! Lists -/

theorem regular_list (a : p.Tree) (as : List p.Tree) (h : ∀ b ∈ a :: as, p.Regular n b) :
    (list p).Regular n (a :: as) := by
  induction as generalizing a with
  | nil =>
    obtain ⟨d, rfl, hd, hn⟩ := h a (List.mem_singleton_self a)
    refine ⟨.last d, rfl, ⟨?_, ?_, hd.nearestElse⟩, hn⟩
    · simp [Derivation.tokens, hd.tokens, Derivation.value, unparse, commas]
    · simp [Derivation.diagnostics, hd.diagnostics, Derivation.value, oversized]
  | cons b as ih =>
    obtain ⟨ha, has⟩ := List.forall_mem_cons.1 h
    obtain ⟨d, rfl, hd, hn⟩ := ha
    obtain ⟨ds, hv, hds, hns⟩ := ih b has
    refine ⟨.more d (.made .comma) ds, by rw [Derivation.value, hv], ⟨?_, ?_, hd.nearestElse, hds.nearestElse⟩,
      Nat.max_le.2 ⟨hn, hns⟩⟩
    · simp [Derivation.tokens, hd.tokens, hds.tokens, Derivation.value, hv, unparse, commas, Terminal.made]
    · simp [Derivation.diagnostics, hd.diagnostics, hds.diagnostics, Derivation.value, hv, oversized]

/-- What stands for a list that may be empty. -/
theorem exists_entries {as : List p.Tree} (h : ∀ a ∈ as, p.Regular n a) :
    ∃ ds : Derivation (.optional (.list p)), ds.value.getD [] = as ∧
      ds.tokens = commas (as.map p.unparse) ∧ ds.diagnostics = as.flatMap p.oversized ∧
        ds.NearestElse ∧ ds.nesting ≤ n := by
  cases as with
  | nil => exact ⟨.absent, rfl, rfl, rfl, trivial, Nat.zero_le n⟩
  | cons a as =>
    obtain ⟨d, hv, hd, hn⟩ := regular_list a as h
    refine ⟨.present d, hv, ?_, ?_, hd.nearestElse, hn⟩
    · rw [Derivation.tokens, hd.tokens, hv, unparse]
    · rw [Derivation.diagnostics, hd.diagnostics, hv, oversized]

theorem regular_many {as : List p.Tree} (h : ∀ a ∈ as, p.Regular n a) : (many p).Regular n as := by
  induction as with
  | nil => exact ⟨.nothing, rfl, ⟨rfl, rfl, trivial⟩, Nat.zero_le n⟩
  | cons a as ih =>
    obtain ⟨ha, has⟩ := List.forall_mem_cons.1 h
    obtain ⟨d, rfl, hd, hn⟩ := ha
    obtain ⟨ds, hv, hds, hns⟩ := ih has
    refine ⟨.next d ds, by rw [Derivation.value, hv], ⟨?_, ?_, hd.nearestElse, hds.nearestElse⟩,
      Nat.max_le.2 ⟨hn, hns⟩⟩
    · simp [Derivation.tokens, hd.tokens, hds.tokens, Derivation.value, hv, unparse]
    · simp [Derivation.diagnostics, hd.diagnostics, hds.diagnostics, Derivation.value, hv, oversized]

theorem regular_optional {o : Option p.Tree} (h : ∀ a ∈ o, p.Regular n a) : (optional p).Regular n o := by
  cases o with
  | none => exact ⟨.absent, rfl, ⟨rfl, rfl, trivial⟩, Nat.zero_le n⟩
  | some a =>
    obtain ⟨d, hv, hd, hn⟩ := h a rfl
    refine ⟨.present d, by rw [Derivation.value, hv], ⟨?_, ?_, hd.nearestElse⟩, hn⟩
    · rw [Derivation.tokens, hd.tokens, Derivation.value, unparse]
    · rw [Derivation.diagnostics, hd.diagnostics, Derivation.value, oversized]

/-! Expressions -/

theorem regular_constant (value : Literal) : primary.Regular n (.literal value) := by
  refine ⟨.constant value.terminal, ?_, ⟨?_, rfl, trivial⟩, Nat.zero_le n⟩
  all_goals cases value with
    | bool b => cases b <;> rfl
    | _ => rfl

theorem regular_this (t : Token) (h : t.kind = .kwThis) : primary.Regular n (.this t) :=
  ⟨.this ⟨t, List.mem_singleton.2 h⟩, rfl, ⟨rfl, rfl, trivial⟩, Nat.zero_le n⟩

theorem regular_variable (t : Token) (h : t.kind = .identifier) : primary.Regular n (.variable t) :=
  ⟨.identifier ⟨t, List.mem_singleton.2 h⟩, rfl, ⟨rfl, rfl, trivial⟩, Nat.zero_le n⟩

theorem regular_grouping {e : Expr} (h : expression.Regular n e) : primary.Regular n (.grouping e) := by
  obtain ⟨d, rfl, hd, hn⟩ := h
  refine ⟨.grouping (.made .leftParen) d (.made .rightParen), rfl, ⟨?_, hd.diagnostics, hd.nearestElse⟩, hn⟩
  simp [Derivation.tokens, hd.tokens, Derivation.value, unparse, Expr.unparse, Terminal.made]

theorem regular_operand {e : Expr} (h : primary.Regular n e) : call.Regular n e := by
  obtain ⟨d, rfl, hd, hn⟩ := h
  exact ⟨.operand d, rfl, ⟨hd.tokens, hd.diagnostics, hd.nearestElse⟩, hn⟩

theorem regular_property {e : Expr} (h : call.Regular n e) (name : Token) (hk : name.kind = .identifier) :
    call.Regular n (.get e name) := by
  obtain ⟨d, rfl, hd, hn⟩ := h
  refine ⟨.property d (.made .dot) ⟨name, List.mem_singleton.2 hk⟩, rfl, ⟨?_, hd.diagnostics, hd.nearestElse⟩, hn⟩
  simp [Derivation.tokens, hd.tokens, Derivation.value, unparse, Expr.unparse, Terminal.made]

theorem regular_application {f : Expr} {arguments : List Expr} (hf : call.Regular n f)
    (ha : ∀ a ∈ arguments, expression.Regular n a) (paren : Token) (hk : paren.kind = .rightParen) :
    call.Regular n (.call f paren arguments) := by
  obtain ⟨d, rfl, hd, hn⟩ := hf
  obtain ⟨ds, hv, htokens, hdiagnostics, helse, hns⟩ := exists_entries (p := expression) ha
  refine ⟨.application d (.made .leftParen) ds ⟨paren, List.mem_singleton.2 hk⟩, by rw [Derivation.value, hv],
    ⟨?_, ?_, hd.nearestElse, helse⟩, Nat.max_le.2 ⟨hn, hns⟩⟩
  · simp [Derivation.tokens, hd.tokens, htokens, Derivation.value, hv, unparse, Expr.unparse,
      Expr.unparseEach_eq_map, Terminal.made]
  · simp [Derivation.diagnostics, hd.diagnostics, hdiagnostics, Derivation.value, hv, oversized,
      Expr.oversized, Expr.oversizedAll_eq_flatMap]

theorem regular_bare {e : Expr} (h : call.Regular n e) : unary.Regular (n + 1) e := by
  obtain ⟨d, rfl, hd, hn⟩ := h
  exact ⟨.bare d, rfl, ⟨hd.tokens, hd.diagnostics, hd.nearestElse⟩, Nat.succ_le_succ hn⟩

theorem regular_sign {e : Expr} (h : unary.Regular n e) (operator : Token)
    (hk : operator.kind ∈ [.bang, .minus]) : unary.Regular (n + 1) (.unary operator e) := by
  obtain ⟨d, rfl, hd, hn⟩ := h
  refine ⟨.sign ⟨operator, hk⟩ d, rfl, ⟨?_, hd.diagnostics, hd.nearestElse⟩, Nat.succ_le_succ hn⟩
  simp [Derivation.tokens, hd.tokens, Derivation.value, unparse, Expr.unparse]

theorem regular_tightest {e : Expr} (h : unary.Regular n e) : (level []).Regular n e := by
  obtain ⟨d, rfl, hd, hn⟩ := h
  exact ⟨.tightest d, rfl, ⟨hd.tokens, hd.diagnostics, hd.nearestElse⟩, hn⟩

variable {ops : List TokenKind} {rest : List (List TokenKind)}

theorem regular_single {e : Expr} (h : (level rest).Regular n e) : (level (ops :: rest)).Regular n e := by
  obtain ⟨d, rfl, hd, hn⟩ := h
  exact ⟨.single d, rfl, ⟨hd.tokens, hd.diagnostics, hd.nearestElse⟩, hn⟩

theorem regular_operation {left right : Expr} (hl : (level (ops :: rest)).Regular n left)
    (hr : (level rest).Regular n right) (operator : Token) (hk : operator.kind ∈ ops) :
    (level (ops :: rest)).Regular n (.binary left operator right) := by
  obtain ⟨d, rfl, hd, hn⟩ := hl
  obtain ⟨e, rfl, he, hm⟩ := hr
  refine ⟨.operation d ⟨operator, hk⟩ e, rfl, ⟨?_, ?_, hd.nearestElse, he.nearestElse⟩, Nat.max_le.2 ⟨hn, hm⟩⟩
  · simp [Derivation.tokens, hd.tokens, he.tokens, Derivation.value, unparse, Expr.unparse]
  · simp [Derivation.diagnostics, hd.diagnostics, he.diagnostics, Derivation.value, oversized, Expr.oversized]

theorem regular_plain {e : Expr} (h : (level operatorLevels).Regular n e) : expression.Regular (n + 1) e := by
  obtain ⟨d, rfl, hd, hn⟩ := h
  exact ⟨.plain d, rfl, ⟨hd.tokens, hd.diagnostics, hd.nearestElse⟩, Nat.succ_le_succ hn⟩

theorem regular_constantExpression (value : Literal) : expression.Regular (n + 2) (.literal value) := by
  have hunary : unary.Regular (n + 1) (.literal value) :=
    regular_bare (regular_operand (regular_constant value))
  have hlevel : ∀ levels, (level levels).Regular (n + 1) (.literal value) := by
    intro levels
    induction levels with
    | nil => exact regular_tightest hunary
    | cons ops rest ih => exact regular_single ih
  exact regular_plain (hlevel operatorLevels)

/-- An assignment is written with its target before the `=`, and nothing is said of that target. -/
theorem unparse_assignment {target value e : Expr} (h : Parser.assignment? target value = some e) :
    Derivation.assigned target value = e ∧
      e.unparse = target.unparse ++ made .equal :: value.unparse ∧
        e.oversized = target.oversized ++ value.oversized ∧
          ∀ t, Derivation.misassigned target t = [] := by
  unfold Parser.assignment? at h
  split at h
  · cases h
    exact ⟨rfl, rfl, rfl, fun _ => rfl⟩
  · cases h
    exact ⟨rfl, by simp [Expr.unparse], rfl, fun _ => rfl⟩
  · cases h

theorem regular_assignment {target value e : Expr} (ht : (level operatorLevels).Regular n target)
    (hv : expression.Regular n value) (he : Parser.assignment? target value = some e) :
    expression.Regular (n + 1) e := by
  obtain ⟨d, rfl, hd, hn⟩ := ht
  obtain ⟨d', rfl, hd', hn'⟩ := hv
  obtain ⟨hvalue, htokens, hover, hsaid⟩ := unparse_assignment he
  refine ⟨.assignment d (.made .equal) d', hvalue, ⟨?_, ?_, hd.nearestElse, hd'.nearestElse⟩,
    Nat.succ_le_succ (Nat.max_le.2 ⟨hn, hn'⟩)⟩
  · simp only [Derivation.tokens, hd.tokens, hd'.tokens, Derivation.value, hvalue, unparse, htokens]
    rfl
  · simp only [Derivation.diagnostics, hd.diagnostics, hd'.diagnostics, Derivation.value, hvalue, hsaid,
      List.append_nil, oversized, hover]

/-! Statements and declarations -/

theorem regular_exprStatement {e : Expr} (h : expression.Regular n e) :
    exprStatement.Regular n (.expression e) := by
  obtain ⟨d, rfl, hd, hn⟩ := h
  refine ⟨.exprStatement d (.made .semicolon), rfl, ⟨?_, hd.diagnostics, hd.nearestElse⟩, hn⟩
  simp [Derivation.tokens, hd.tokens, Derivation.value, unparse, Stmt.unparse, Terminal.made]

theorem regular_initializer {e : Expr} (h : expression.Regular n e) : initializer.Regular n e := by
  obtain ⟨d, rfl, hd, hn⟩ := h
  refine ⟨.initializer (.made .equal) d, rfl, ⟨?_, hd.diagnostics, hd.nearestElse⟩, hn⟩
  simp [Derivation.tokens, hd.tokens, Derivation.value, unparse, Terminal.made]

theorem regular_varDeclaration (name : Token) (hk : name.kind = .identifier) {o : Option Expr}
    (h : ∀ e ∈ o, expression.Regular n e) : varDeclaration.Regular n (.var name o) := by
  obtain ⟨d, hv, hd, hn⟩ := regular_optional (p := initializer) fun e he => regular_initializer (h e he)
  refine ⟨.varDeclaration (.made .kwVar) ⟨name, List.mem_singleton.2 hk⟩ d (.made .semicolon),
    by rw [Derivation.value, hv], ⟨?_, ?_, hd.nearestElse⟩, hn⟩
  · cases o <;> simp [Derivation.tokens, hd.tokens, hv, Derivation.value, unparse, Stmt.unparse, Terminal.made]
  · cases o <;> simp [Derivation.diagnostics, hd.diagnostics, hv, Derivation.value, oversized, Stmt.oversized]

theorem regular_block {ss : List Stmt} (h : ∀ s ∈ ss, declaration.Regular n s) : block.Regular n ss := by
  obtain ⟨d, rfl, hd, hn⟩ := regular_many (p := declaration) h
  refine ⟨.block (.made .leftBrace) d (.made .rightBrace), rfl, ⟨?_, ?_, hd.nearestElse⟩, hn⟩
  · simp [Derivation.tokens, hd.tokens, Derivation.value, unparse, Stmt.unparse, Terminal.made,
      Stmt.unparseEach_eq_map]
  · simp [Derivation.diagnostics, hd.diagnostics, Derivation.value, oversized, Stmt.oversized,
      Stmt.oversizedAll_eq_flatMap]

theorem regular_blockOf {s t : Stmt} (hs : declaration.Regular n s) (ht : declaration.Regular n t) :
    block.Regular n [s, t] := regular_block (by simp [hs, ht])

theorem regular_function (name : Token) (hk : name.kind = .identifier) {params : List Token} {body : List Stmt}
    (hp : ∀ t ∈ params, t.kind = .identifier) (hb : block.Regular n body) :
    function.Regular n (.function name params body) := by
  have hparams : ∀ t ∈ params, Phrase.name.Regular n t := fun t ht =>
    ⟨.name ⟨t, List.mem_singleton.2 (hp t ht)⟩, rfl, ⟨rfl, rfl, trivial⟩, Nat.zero_le n⟩
  obtain ⟨ds, hv, htokens, hdiagnostics, helse, hns⟩ := exists_entries (p := Phrase.name) hparams
  obtain ⟨d, rfl, hd, hn⟩ := hb
  refine ⟨.function ⟨name, List.mem_singleton.2 hk⟩ (.made .leftParen) ds (.made .rightParen) d,
    by rw [Derivation.value, hv], ⟨?_, ?_, helse, hd.nearestElse⟩, Nat.max_le.2 ⟨hns, hn⟩⟩
  · simp [Derivation.tokens, hd.tokens, htokens, Derivation.value, hv, unparse, Stmt.unparse,
      unparseFunction, Terminal.made]
  · simp [Derivation.diagnostics, hd.diagnostics, hdiagnostics, Derivation.value, hv, oversized,
      Stmt.oversized, Terminal.made]

theorem regular_declared {s : Stmt} (h : varDeclaration.Regular n s) : declaration.Regular (n + 1) s := by
  obtain ⟨d, rfl, hd, hn⟩ := h
  exact ⟨.variable d, rfl, ⟨hd.tokens, hd.diagnostics, hd.nearestElse⟩, Nat.succ_le_succ hn⟩

theorem regular_funDeclaration {name : Token} {params : List Token} {body : List Stmt}
    (h : function.Regular n (.function name params body)) :
    declaration.Regular (n + 1) (.function name params body) := by
  obtain ⟨d, hv, hd, hn⟩ := h
  refine ⟨.funDeclaration (.made .kwFun) d, hv, ⟨?_, hd.diagnostics, hd.nearestElse⟩, Nat.succ_le_succ hn⟩
  simp [Derivation.tokens, hd.tokens, Derivation.value, hv, unparse, Stmt.unparse, Terminal.made]

theorem regular_classDeclaration (name : Token) (hk : name.kind = .identifier) {methods : List Stmt}
    (h : ∀ s ∈ methods, function.Regular n s) : declaration.Regular (n + 1) (.class name methods) := by
  obtain ⟨d, rfl, hd, hn⟩ := regular_many (p := function) h
  refine ⟨.classDeclaration (.made .kwClass) ⟨name, List.mem_singleton.2 hk⟩ (.made .leftBrace) d
    (.made .rightBrace), rfl, ⟨?_, ?_, hd.nearestElse⟩, Nat.succ_le_succ hn⟩
  · simp [Derivation.tokens, hd.tokens, Derivation.value, unparse, Stmt.unparse, Terminal.made,
      Stmt.unparseEach_eq_map, Function.comp_def]
  · simp [Derivation.diagnostics, hd.diagnostics, Derivation.value, oversized, Stmt.oversized,
      Stmt.oversizedAll_eq_flatMap]

/-- Whether a statement is regular, and followed by no `else` if it ends in an `if` that would take it. -/
def Stands (n : Nat) (s : Stmt) (after : List Token) : Prop :=
  ∃ d : Derivation .statement, d.value = s ∧ d.Canonical ∧ d.nesting ≤ n ∧
    (d.EndsOpen → Parser.Avoids [.kwElse] after)

variable {s t : Stmt} {e : Expr} {after : List Token}

theorem Stands.mono (h : Stands n s after) (hn : n ≤ m) : Stands m s after := by
  obtain ⟨d, hv, hd, hm, ho⟩ := h
  exact ⟨d, hv, hd, Nat.le_trans hm hn, ho⟩

theorem Stands.declaration (h : Stands n s after) : declaration.Regular (n + 1) s := by
  obtain ⟨d, rfl, hd, hn, -⟩ := h
  exact ⟨.statement d, rfl, ⟨hd.tokens, hd.diagnostics, hd.nearestElse⟩, Nat.succ_le_succ hn⟩

theorem stands_expression (h : exprStatement.Regular n s) : Stands (n + 1) s after := by
  obtain ⟨d, rfl, hd, hn⟩ := h
  exact ⟨.expression d, rfl, ⟨hd.tokens, hd.diagnostics, hd.nearestElse⟩, Nat.succ_le_succ hn, nofun⟩

theorem stands_print (h : expression.Regular n e) : Stands (n + 1) (.print e) after := by
  obtain ⟨d, rfl, hd, hn⟩ := h
  refine ⟨.print (.made .kwPrint) d (.made .semicolon), rfl, ⟨?_, hd.diagnostics, hd.nearestElse⟩,
    Nat.succ_le_succ hn, nofun⟩
  simp [Derivation.tokens, hd.tokens, Derivation.value, unparse, Stmt.unparse, Terminal.made]

theorem stands_return (keyword : Token) (hk : keyword.kind = .kwReturn) {o : Option Expr}
    (h : ∀ e ∈ o, expression.Regular n e) : Stands (n + 1) (.return keyword o) after := by
  obtain ⟨d, hv, hd, hn⟩ := regular_optional (p := expression) h
  refine ⟨.returning ⟨keyword, List.mem_singleton.2 hk⟩ d (.made .semicolon), by rw [Derivation.value, hv],
    ⟨?_, ?_, hd.nearestElse⟩, Nat.succ_le_succ hn, nofun⟩
  · cases o <;> simp [Derivation.tokens, hd.tokens, hv, Derivation.value, unparse, Stmt.unparse, Terminal.made]
  · cases o <;> simp [Derivation.diagnostics, hd.diagnostics, hv, Derivation.value, oversized, Stmt.oversized]

theorem stands_block {ss : List Stmt} (h : block.Regular n ss) : Stands (n + 1) (.block ss) after := by
  obtain ⟨d, rfl, hd, hn⟩ := h
  exact ⟨.nested d, rfl, ⟨hd.tokens, hd.diagnostics, hd.nearestElse⟩, Nat.succ_le_succ hn, nofun⟩

theorem stands_while (he : expression.Regular n e) (hs : Stands n s after) :
    Stands (n + 1) (.while e s) after := by
  obtain ⟨c, rfl, hc, hn⟩ := he
  obtain ⟨d, rfl, hd, hm, ho⟩ := hs
  refine ⟨.whileLoop (.made .kwWhile) (.made .leftParen) c (.made .rightParen) d, rfl,
    ⟨?_, ?_, hc.nearestElse, hd.nearestElse⟩, Nat.succ_le_succ (Nat.max_le.2 ⟨hn, hm⟩), ho⟩
  · simp [Derivation.tokens, hc.tokens, hd.tokens, Derivation.value, unparse, Stmt.unparse, Terminal.made]
  · simp [Derivation.diagnostics, hc.diagnostics, hd.diagnostics, Derivation.value, oversized, Stmt.oversized]

/-- Without an `else` an `if` could take one, so there is none behind it. -/
theorem stands_branch (he : expression.Regular n e) (hs : Stands n s after)
    (ha : Parser.Avoids [.kwElse] after) : Stands (n + 1) (.branch e s none) after := by
  obtain ⟨c, rfl, hc, hn⟩ := he
  obtain ⟨d, rfl, hd, hm, -⟩ := hs
  refine ⟨.branch (.made .kwIf) (.made .leftParen) c (.made .rightParen) d .absent, rfl,
    ⟨?_, ?_, hc.nearestElse, hd.nearestElse⟩, ?_, fun _ => ha⟩
  · simp [Derivation.tokens, hc.tokens, hd.tokens, Derivation.value, unparse, Stmt.unparse, Terminal.made]
  · simp [Derivation.diagnostics, hc.diagnostics, hd.diagnostics, Derivation.value, oversized, Stmt.oversized]
  · exact Nat.succ_le_succ (Nat.max_le.2 ⟨hn, Nat.max_le.2 ⟨hm, Nat.zero_le n⟩⟩)

/-- What stands before an `else` cannot take it. -/
theorem stands_branch_else {between : List Token} (he : expression.Regular n e) (hs : Stands n s between)
    (hb : ¬ Parser.Avoids [.kwElse] between) (ht : Stands n t after) :
    Stands (n + 1) (.branch e s (some t)) after := by
  obtain ⟨c, rfl, hc, hn⟩ := he
  obtain ⟨d, rfl, hd, hm, ho⟩ := hs
  obtain ⟨f, rfl, hf, hk, hof⟩ := ht
  refine ⟨.branch (.made .kwIf) (.made .leftParen) c (.made .rightParen) d
      (.present (.alternative (.made .kwElse) f)), rfl,
    ⟨?_, ?_, hc.nearestElse, hd.nearestElse, fun h => hb (ho h), hf.nearestElse⟩, ?_, hof⟩
  · simp [Derivation.tokens, hc.tokens, hd.tokens, hf.tokens, Derivation.value, unparse, Stmt.unparse,
      Terminal.made]
  · simp [Derivation.diagnostics, hc.diagnostics, hd.diagnostics, hf.diagnostics, Derivation.value,
      oversized, Stmt.oversized]
  · exact Nat.succ_le_succ (Nat.max_le.2 ⟨hn, Nat.max_le.2 ⟨hm, hk⟩⟩)

end Phrase
end Lox
