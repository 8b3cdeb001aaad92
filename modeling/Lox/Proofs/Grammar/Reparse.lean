import Lox.Proofs.Grammar.Gives
import Lox.Proofs.Grammar.Regular
import Mathlib.Data.List.TakeWhile

/-! Parsing what was parsed. Whatever the tokens were, the trees that the parser gave can be written back, and
what they are written as parses to the same trees again. -/

namespace Lox
namespace Parser

variable {n : Nat} {e : Parser Expr} {s : Parser Stmt} {d : Parser (Option Stmt)}

/-- Whether a parser builds trees that can be written back. -/
abbrev Builds (q : Phrase) (n : Nat) (p : Parser q.Tree) : Prop := Yields (fun _ => True) p (q.Regular n)

/-! Expressions -/

theorem regular_binary {ops : List TokenKind} {rest : List (List TokenKind)} (more : List (Token × Expr))
    (left : Expr) (hl : (Phrase.level (ops :: rest)).Regular n left)
    (hm : ∀ r ∈ more, r.1.kind ∈ ops ∧ (Phrase.level rest).Regular n r.2) :
    (Phrase.level (ops :: rest)).Regular n (binary left more) := by
  induction more generalizing left with
  | nil => exact hl
  | cons r more ih =>
    obtain ⟨hr, hm⟩ := List.forall_mem_cons.1 hm
    exact ih _ (Phrase.regular_operation hl hr.2 r.1 hr.1) hm

theorem builds_levels {operand : Parser Expr} (h : Builds .unary n operand)
    (levels : List (List TokenKind)) : Builds (.level levels) n (levels.foldr leftAssoc operand) := by
  induction levels with
  | nil => exact h.mono fun _ => Phrase.regular_tightest
  | cons ops rest ih =>
    refine ih.bind fun first hf => (yields_collect (yields_behind ops ih)).bind fun more hm => ?_
    exact yields_pure _ (regular_binary more first (Phrase.regular_single hf) fun r hr =>
      ⟨(hm r hr).1.1, (hm r hr).2⟩)

theorem builds_primary (h : Builds .expression n e) : Builds .primary n (primary e) := by
  refine (yields_accept _).bind fun o _ => ?_
  cases o with
  | none => exact yields_fail .expression
  | some t =>
    dsimp only
    split
    · exact yields_pure _ (Phrase.regular_constant _)
    · exact yields_pure _ (Phrase.regular_constant _)
    · exact yields_pure _ (Phrase.regular_constant _)
    · next hk => exact yields_pure _ (Phrase.regular_this t hk)
    · next hk => exact yields_pure _ (Phrase.regular_variable t hk)
    · exact h.bind fun _ hi => (yields_expect .rightParen .groupingEnd).bind fun _ _ =>
        yields_pure _ (Phrase.regular_grouping hi)
    · exact yields_pure _ (Phrase.regular_constant _)

theorem yields_regular_suffix (h : Builds .expression n e) :
    Yields (fun _ => True) (suffix e) fun o => ∀ x ∈ o, ∀ f, Phrase.call.Regular n f →
      Phrase.call.Regular n (x.apply f) := by
  refine (yields_accept [.leftParen]).bind fun o _ => ?_
  cases o with
  | some _ =>
    refine (yields_listed h .tooManyArguments).bind fun arguments ha =>
      (yields_expect .rightParen .argumentsEnd).bind fun paren hp => yields_pure _ ?_
    intro x hx f hf
    obtain rfl := Option.some.inj hx
    exact Phrase.regular_application hf ha paren hp.1
  | none =>
    refine (yields_accept [.dot]).bind fun o _ => ?_
    cases o with
    | some _ =>
      refine (yields_expect .identifier .propertyName).bind fun name hn => yields_pure _ ?_
      intro x hx f hf
      obtain rfl := Option.some.inj hx
      exact Phrase.regular_property hf name hn.1
    | none => exact yields_pure none nofun

theorem builds_suffixed (h : Builds .expression n e) : Builds .call n (suffixed e) := by
  refine (builds_primary h).bind fun operand ho => (yields_collect (yields_regular_suffix h)).bind
    fun suffixes hs => yields_pure _ ?_
  refine List.foldlRecOn suffixes Suffix.apply (Phrase.regular_operand ho) fun f hf x hx => ?_
  exact hs x hx f hf

theorem builds_expressions : ∀ n, Builds .expression n (expression n) ∧ Builds .unary n (unary n)
  | 0 => ⟨yields_throw .tooDeep, yields_throw .tooDeep⟩
  | n + 1 => by
    obtain ⟨he, hu⟩ := builds_expressions n
    constructor
    · unfold expression
      refine (builds_levels hu operatorLevels).bind fun target ht => yields_place.bind fun equals _ =>
        (yields_accept [.equal]).bind fun o _ => ?_
      cases o with
      | none => exact yields_pure target (Phrase.regular_plain ht)
      | some _ =>
        refine he.bind fun value hv => ?_
        split
        · next ha => exact yields_pure _ (Phrase.regular_assignment ht hv ha)
        -- the value is dropped, and its tokens with it
        · exact (yields_report equals .assignmentTarget).bind fun _ _ =>
            yields_pure target (Phrase.regular_plain ht)
    · unfold unary
      refine (yields_accept [.bang, .minus]).bind fun o ho => ?_
      cases o with
      | none => exact (builds_suffixed he).mono fun _ => Phrase.regular_bare
      | some operator =>
        exact hu.bind fun right hr => yields_pure _ (Phrase.regular_sign hr operator (ho operator rfl).1)

/-! Statements -/

/-- Whether a parser builds statements that can be written back where they stand. -/
def BuildsStatement (n : Nat) (p : Parser Stmt) : Prop := ∀ ts, Gives p ts (Phrase.Stands n)

/-- Whether what a parser builds can be written back as declarations. -/
abbrev BuildsDeclared (n : Nat) (p : Parser (Option Stmt)) : Prop :=
  Yields (fun _ => True) p fun o => ∀ s ∈ o, Phrase.declaration.Regular n s

theorem builds_expressionStatement (h : Builds .expression n e) :
    Builds .exprStatement n (expressionStatement e) :=
  h.bind fun _ hi => (yields_expect .semicolon .expressionEnd).bind fun _ _ =>
    yields_pure _ (Phrase.regular_exprStatement hi)

theorem builds_varDeclaration (h : Builds .expression n e) :
    Builds .varDeclaration n (varDeclaration e) := by
  refine (yields_expect .identifier .variableName).bind fun name hn =>
    (yields_behind [.equal] h).bind fun o ho => (yields_expect .semicolon .variableEnd).bind fun _ _ =>
      yields_pure _ (Phrase.regular_varDeclaration name hn.1 fun e he => ?_)
  obtain ⟨r, rfl, rfl⟩ := Option.map_eq_some_iff.1 he
  exact (ho r rfl).2

theorem builds_block (h : BuildsDeclared n d) : Builds .block n (block d) :=
  (yields_untilBrace h).bind fun _ hs => (yields_expect .rightBrace .blockEnd).bind fun _ _ =>
    yields_pure _ (Phrase.regular_block hs)

theorem builds_functionDeclaration (sort : FunctionSort) (h : BuildsDeclared n d) :
    Yields (fun _ => True) (functionDeclaration sort d) fun s =>
      (∃ d : Declaration, s = d.statement) ∧ Phrase.function.Regular n s :=
  (yields_expect .identifier (.functionName sort)).bind fun name hn =>
    (yields_expect .leftParen (.functionParen sort)).bind fun _ _ =>
      (yields_listed (yields_expect .identifier .parameterName) .tooManyParameters).bind fun params hp =>
        (yields_expect .rightParen .parametersEnd).bind fun _ _ =>
          (yields_expect .leftBrace (.functionBody sort)).bind fun _ _ => (builds_block h).bind
            fun body hb => yields_pure _ ⟨⟨⟨name, params, body⟩, rfl⟩,
              Phrase.regular_function name hn.1 (fun t ht => (hp t ht).1) hb⟩

theorem builds_classDeclaration (h : BuildsDeclared n d) :
    Builds .declaration (n + 1) (classDeclaration d) := by
  have hmethod : Yields (fun _ => True) (some <$> functionDeclaration .method d) fun o =>
      ∀ s ∈ o, Phrase.function.Regular n s :=
    Yields.map ((builds_functionDeclaration .method h).mono fun s hs _ hm => Option.some.inj hm ▸ hs.2)
  exact (yields_expect .identifier .className).bind fun name hn =>
    (yields_expect .leftBrace .classBody).bind fun _ _ => (yields_untilBrace hmethod).bind
      fun _ hm => (yields_expect .rightBrace .classEnd).bind fun _ _ =>
        yields_pure _ (Phrase.regular_classDeclaration name hn.1 hm)

theorem yields_regular_loopStart (h : Builds .expression n e) :
    Yields (fun _ => True) (loopStart e) fun o => ∀ s ∈ o, Phrase.declaration.Regular (n + 2) s := by
  refine (yields_accept [.semicolon, .kwVar]).bind fun o _ => ?_
  cases o with
  | none =>
    refine Yields.map ((builds_expressionStatement h).mono fun s hs _ hm => Option.some.inj hm ▸ ?_)
    have hstands : Phrase.Stands (n + 1) s [] := Phrase.stands_expression hs
    exact hstands.declaration
  | some t =>
    dsimp only
    split
    · refine Yields.map ((builds_varDeclaration h).mono fun s hs _ hm => Option.some.inj hm ▸ ?_)
      exact (Phrase.regular_declared hs).mono (Nat.le_succ _)
    · exact yields_pure none nofun

/-- A `for` is written back as the `while` that stands for it, in up to two blocks. -/
theorem stands_loop {start : Option Stmt} {condition increment : Option Expr} {body : Stmt}
    {after : List Token} (hs : ∀ s ∈ start, Phrase.declaration.Regular (n + 2) s)
    (hc : ∀ e ∈ condition, Phrase.expression.Regular n e)
    (hi : ∀ e ∈ increment, Phrase.expression.Regular n e) (hb : Phrase.Stands n body after) :
    Phrase.Stands (n + 6) (loop start condition increment body) after := by
  have hcondition : Phrase.expression.Regular (n + 2) (condition.getD (.literal (.bool true))) := by
    cases condition with
    | none => exact Phrase.regular_constantExpression _
    | some e => exact (hc e rfl).mono (Nat.le_add_right n 2)
  have hloop : Phrase.Stands (n + 4) (Derivation.loopOf condition increment body) after := by
    cases increment with
    | none => exact Phrase.stands_while (hcondition.mono (by omega)) (hb.mono (by omega))
    | some e =>
      have hlast : Phrase.Stands (n + 1) (.expression e) [] :=
        Phrase.stands_expression (Phrase.regular_exprStatement (hi e rfl))
      have hbody := Phrase.regular_blockOf (hb.declaration.mono (Nat.le_succ _)) hlast.declaration
      exact Phrase.stands_while (hcondition.mono (by omega)) (Phrase.stands_block hbody)
  rw [loop_eq]
  cases start with
  | none => exact hloop.mono (by omega)
  | some s =>
    exact Phrase.stands_block (Phrase.regular_blockOf ((hs s rfl).mono (by omega)) hloop.declaration)

theorem builds_forStatement (he : Builds .expression n e) (hs : BuildsStatement n s) :
    BuildsStatement (n + 6) (forStatement e s) := by
  intro ts
  refine ((yields_expect .leftParen .forParen).gives ts).bind fun _ _ _ =>
    ((yields_regular_loopStart he).gives _).bind fun start _ hstart => ?_
  refine ((yields_unlessAt (yields_nextIs .semicolon) he).gives _).bind fun condition _ hc =>
    ((yields_expect .semicolon .forCondition).gives _).bind fun _ _ _ => ?_
  refine ((yields_unlessAt (yields_nextIs .rightParen) he).gives _).bind fun increment _ hi =>
    ((yields_expect .rightParen .forEnd).gives _).bind fun _ ts' _ => ?_
  exact (hs ts').bind fun body _ hb => gives_pure _ (stands_loop hstart hc hi hb)

theorem builds_whileStatement (he : Builds .expression n e) (hs : BuildsStatement n s) :
    BuildsStatement (n + 1) (whileStatement e s) := fun ts =>
  ((yields_expect .leftParen .whileParen).gives ts).bind fun _ _ _ => (he.gives _).bind fun _ _ hc =>
    ((yields_expect .rightParen .whileEnd).gives _).bind fun _ ts' _ =>
      (hs ts').bind fun _ _ hb => gives_pure _ (Phrase.stands_while hc hb)

theorem builds_ifStatement (he : Builds .expression n e) (hs : BuildsStatement n s) :
    BuildsStatement (n + 1) (ifStatement e s) := by
  intro ts
  refine ((yields_expect .leftParen .ifParen).gives ts).bind fun _ _ _ => (he.gives _).bind fun _ _ hc =>
    ((yields_expect .rightParen .ifEnd).gives _).bind fun _ ts' _ =>
      (hs ts').bind fun whenTrue between ht => (gives_behind [.kwElse] hs).bind fun o after ho => ?_
  cases o with
  | none =>
    obtain ⟨hav, rfl⟩ := ho.1 rfl
    exact gives_pure _ (Phrase.stands_branch hc ht hav)
  | some r =>
    obtain ⟨hav, hf⟩ := ho.2 r rfl
    exact gives_pure _ (Phrase.stands_branch_else hc ht hav hf)

theorem builds_statements (n : Nat) :
    BuildsDeclared (6 * n) (declaration n) ∧ BuildsStatement (6 * n) (statement n) := by
  induction n with
  | zero => exact ⟨yields_throw .tooDeep, fun _ => gives_throw .tooDeep⟩
  | succ n ih =>
    obtain ⟨hd, hs⟩ := ih
    have he : Builds .expression (6 * n) (expression n) :=
      (builds_expressions n).1.mono fun _ h => h.mono (by omega)
    constructor
    · unfold declaration
      refine Yields.recovering ((yields_accept _).bind fun o _ => ?_)
      cases o with
      | none =>
        refine yields_of_gives fun ts => (hs ts).mono fun s after h => ?_
        exact h.declaration.mono (by omega)
      | some t =>
        dsimp only
        split
        · exact (builds_classDeclaration hd).mono fun _ h => h.mono (by omega)
        · refine (builds_functionDeclaration .function hd).mono ?_
          rintro _ ⟨⟨f, rfl⟩, h⟩
          exact (Phrase.regular_funDeclaration h).mono (by omega)
        · exact (builds_varDeclaration he).mono fun _ h => (Phrase.regular_declared h).mono (by omega)
    · intro ts
      unfold statement
      refine (gives_accept _).bind fun o ts' ho => ?_
      cases o with
      | none =>
        refine ((builds_expressionStatement he).gives ts').mono fun s after h => ?_
        exact (Phrase.stands_expression h).mono (by omega)
      | some t =>
        dsimp only
        split
        · exact builds_forStatement he hs ts'
        · exact (builds_ifStatement he hs ts').mono fun _ _ h => h.mono (by omega)
        · exact (he.gives ts').bind fun _ _ hi => ((yields_expect .semicolon .printEnd).gives _).bind
            fun _ _ _ => gives_pure _ ((Phrase.stands_print hi).mono (by omega))
        · next hk =>
          exact ((yields_unlessAt (yields_nextIs .semicolon) he).gives ts').bind fun _ _ hv =>
            ((yields_expect .semicolon .returnEnd).gives _).bind fun _ _ _ =>
              gives_pure _ ((Phrase.stands_return t hk hv).mono (by omega))
        · exact (builds_whileStatement he hs ts').mono fun _ _ h => h.mono (by omega)
        · exact ((builds_block hd).gives ts').bind fun _ _ hb =>
            gives_pure _ ((Phrase.stands_block hb).mono (by omega))

theorem builds_program (n : Nat) : Builds (.many .declaration) (6 * n) (program n) := by
  refine (yields_collect (yields_unlessAt yields_atEnd (builds_statements n).1.limiting)).bind
    fun items hi => yields_pure _ (Phrase.regular_many fun s hs => ?_)
  obtain ⟨o, ho, hos⟩ := List.mem_filterMap.1 hs
  exact hi o ho s hos

end Parser

/-! The end of the tokens -/

theorem Terminal.kind_ne_eof {kinds : List TokenKind} (t : Terminal kinds) (h : .eof ∉ kinds) :
    t.1.kind ≠ .eof := fun he => h (he ▸ t.2)

/-- Whether the ending token is no operator of a phrase. -/
def Phrase.Endless : Phrase → Prop
  | level levels => .eof ∉ levels.flatten
  | optional p | list p | many p => p.Endless
  | _ => True

theorem Phrase.endless_operators : (level operatorLevels).Endless := by simp [Endless, operatorLevels]

namespace Derivation

variable {q : Phrase}

theorem kind_ne_eof (d : Derivation q) (hq : q.Endless) : ∀ t ∈ d.tokens, t.kind ≠ .eof := by
  induction d with
  | absent | nothing => simp [tokens]
  | name | constant | this | identifier | startNothing => simp [tokens, Terminal.kind_ne_eof]
  | operation l t r ihl ihr =>
    have ht := t.kind_ne_eof fun h => hq (List.mem_append_left _ h)
    have hr := ihr fun h => hq (List.mem_append_right _ h)
    simpa [tokens, or_imp, forall_and, ht] using ⟨ihl hq, hr⟩
  | single d ih => exact ih fun h => hq (List.mem_append_right _ h)
  | present _ ih | last _ ih => exact ih hq
  | more _ _ _ ih ih' | next _ _ ih ih' =>
    simpa [tokens, or_imp, forall_and, Terminal.kind_ne_eof] using And.intro (ih hq) (ih' hq)
  | plain _ ih => exact ih Phrase.endless_operators
  | assignment _ _ _ ih ih' =>
    simpa [tokens, or_imp, forall_and, Terminal.kind_ne_eof] using
      ⟨ih Phrase.endless_operators, ih' trivial⟩
  | tightest _ ih => exact ih trivial
  | operand _ ih | bare _ ih | startVariable _ ih | startExpression _ ih | expression _ ih | nested _ ih
  | statement _ ih | «variable» _ ih => exact ih trivial
  | grouping _ _ _ ih | property _ _ _ ih | sign _ _ ih | initializer _ _ ih | exprStatement _ _ ih
  | varDeclaration _ _ _ _ ih | block _ _ _ ih | alternative _ _ ih | print _ _ _ ih
  | returning _ _ _ ih | funDeclaration _ _ ih | classDeclaration _ _ _ _ _ ih =>
    simpa [tokens, or_imp, forall_and, Terminal.kind_ne_eof] using ih trivial
  | application _ _ _ _ ih ih' | whileLoop _ _ _ _ _ ih ih' | function _ _ _ _ _ ih ih' =>
    simpa [tokens, or_imp, forall_and, Terminal.kind_ne_eof] using And.intro (ih trivial) (ih' trivial)
  | branch _ _ _ _ _ _ ihc iht ihf =>
    simpa [tokens, or_imp, forall_and, Terminal.kind_ne_eof] using ⟨ihc trivial, iht trivial, ihf trivial⟩
  | forLoop _ _ _ _ _ _ _ _ ihs ihc ihi ihb =>
    simpa [tokens, or_imp, forall_and, Terminal.kind_ne_eof] using
      ⟨ihs trivial, ihc trivial, ihi trivial, ihb trivial⟩

/-- A sentence that stands alone ends where its tokens do. -/
theorem tokens_ofList (d : Derivation q) (hq : q.Endless) : (TokenStream.ofList d.tokens).tokens = d.tokens := by
  refine List.takeWhile_eq_self_iff.2 fun t ht => ?_
  exact decide_eq_true (d.kind_ne_eof hq t ht)

end Derivation

/-- The statements that a program has, whatever was wrong with the rest of it, are written as a sentence with
each `else` at the nearest `if`. It is read back as just these statements, unless there is too little room for
nesting, and nothing is said but of the lists that are too long. -/
theorem Program.reparses (depth : Nat) (ts : List Token) :
    let ss := (Program.ofTokens depth (TokenStream.ofList ts).tokens).statements
    ∃ d : Derivation (.many .declaration), d.tokens = Stmt.unparseAll ss ∧ d.value = ss ∧ d.NearestElse ∧
      d.nesting ≤ 6 * depth ∧ ∀ depth', d.nesting ≤ depth' →
        let again := Program.ofTokens depth' (TokenStream.ofList (Stmt.unparseAll ss)).tokens
        again.statements = ss ∧ ∀ line, again.errors.map (·.diagnostic line) = Stmt.oversizedAll ss := by
  intro ss
  have hregular : (Phrase.many .declaration).Regular (6 * depth) ss := by
    have h := (Parser.builds_program depth).gives (TokenStream.ofList ts).tokens #[]
    show (Phrase.many .declaration).Regular _ (Program.ofTokens depth (TokenStream.ofList ts).tokens).statements
    unfold Program.ofTokens
    cases hr : Parser.program depth ⟨(TokenStream.ofList ts).tokens, #[]⟩ with
    | ok statements c => exact h statements c hr
    | error halt c => exact Phrase.regular_many nofun
  obtain ⟨d, hv, hd, hn⟩ := hregular
  have htokens : d.tokens = Stmt.unparseAll ss := by
    rw [hd.tokens, hv, Phrase.unparse, Stmt.unparseAll, Stmt.unparseEach_eq_map]
    rfl
  have hover : d.diagnostics = Stmt.oversizedAll ss := by
    rw [hd.diagnostics, hv, Phrase.oversized, Stmt.oversizedAll_eq_flatMap]
    rfl
  refine ⟨d, htokens, hv, hd.nearestElse, hn, fun depth' hdepth => ?_⟩
  rw [← htokens, d.tokens_ofList trivial, ← hover, ← hv]
  exact Program.ofTokens_derivation d hdepth hd.nearestElse

/-- `for (;; i = i + j) print i; ); a + b = c;` -/
def strayed : List Token :=
  [(.kwFor, "for"), (.leftParen, "("), (.semicolon, ";"), (.semicolon, ";"), (.identifier, "i"),
    (.equal, "="), (.identifier, "i"), (.plus, "+"), (.identifier, "j"), (.rightParen, ")"),
    (.kwPrint, "print"), (.identifier, "i"), (.semicolon, ";"), (.rightParen, ")"), (.semicolon, ";"),
    (.identifier, "a"), (.plus, "+"), (.identifier, "b"), (.equal, "="), (.identifier, "c"),
    (.semicolon, ";"), (.eof, "")].map fun (kind, lexeme) => ⟨kind, lexeme, .nil, 1⟩

/-- Of a loop, a stray parenthesis and an assignment to a sum, the loop and the sum are left. -/
theorem Program.reparses_strayed :
    let program := Program.ofTokens 20 (TokenStream.ofList strayed).tokens
    program.errors.length = 2 ∧ program.statements.length = 2 ∧
      (Program.ofTokens 120 (TokenStream.ofList (Stmt.unparseAll program.statements)).tokens).statements =
        program.statements := by
  obtain ⟨d, -, -, -, hn, h⟩ := Program.reparses 20 strayed
  exact ⟨rfl, rfl, (h 120 hn).1⟩

example : (Stmt.unparseAll (Program.ofTokens 20 (TokenStream.ofList strayed).tokens).statements).map
    Token.lexeme = ["while", "(", "true", ")", "\x7b", "print", "i", ";", "i", "=", "i", "+", "j", ";", "\x7d",
      "a", "+", "b", ";"] := by rfl

end Lox
