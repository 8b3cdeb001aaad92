import Lox.Proofs.Tree.Unlined
import Lox.Proofs.Carries
import Lox.Tree.Parser

/-! Parsing without lines. No decision of the parser rests on the line of a token, so of tokens without lines it
gives the tree without lines, and it reports the same problems at the same places. -/

namespace Lox

def Cursor.unlined (c : Cursor) : Cursor := ⟨c.rest.map Token.unlined, c.errors.map ParseError.unlined⟩

namespace Parser

variable {α β γ δ : Type} {g : α → β} {p : Parser α} {q : Parser β}

/-- Whether `q` gives without lines what `p` gives, which is translated by `g`. -/
abbrev Unlines (g : α → β) (p : Parser α) (q : Parser β) : Prop := Carries id Cursor.unlined g p q

theorem unlines_place : Unlines (List.map Token.unlined) place place := fun _ => rfl

theorem unlines_nextIs (kind : TokenKind) : Unlines id (nextIs kind) (nextIs kind) := by
  rintro ⟨_ | ⟨t, ts⟩, errors⟩ <;> rfl

theorem unlines_atEnd : Unlines id atEnd atEnd := by
  rintro ⟨_ | ⟨t, ts⟩, errors⟩ <;> rfl

theorem unlines_report (place : List Token) (problem : ParseProblem) :
    Unlines id (report place problem) (report (place.map Token.unlined) problem) := by
  intro c
  simp [report, carried, Cursor.unlined, ParseError.unlined]

theorem unlines_fail (problem : ParseProblem) : Unlines g (fail problem) (fail problem) :=
  unlines_place.bind fun ts => (unlines_report ts problem).bind fun _ => carries_throw rfl

theorem unlines_accept (kinds : List TokenKind) :
    Unlines (Option.map Token.unlined) (accept kinds) (accept kinds) := by
  rintro ⟨_ | ⟨t, ts⟩, errors⟩
  · rfl
  · simp only [accept, Cursor.unlined, List.map_cons, Token.unlined_kind]
    split <;> rfl

theorem unlines_expect (kind : TokenKind) (problem : ParseProblem) :
    Unlines Token.unlined (expect kind problem) (expect kind problem) := by
  refine (unlines_accept [kind]).bind fun o => ?_
  cases o with
  | none => exact unlines_fail problem
  | some t => exact carries_pure rfl

theorem unlines_collectWithin {step : Parser (Option α)} {step' : Parser (Option β)}
    (h : Unlines (Option.map g) step step') (left : List Token) :
    Unlines (List.map g) (collectWithin step left) (collectWithin step' (left.map Token.unlined)) := by
  induction left with
  | nil => exact carries_pure rfl
  | cons _ left ih =>
    refine h.bind fun o => ?_
    cases o with
    | none => exact carries_pure rfl
    | some a => exact ih.last fun _ => rfl

theorem unlines_collect {step : Parser (Option α)} {step' : Parser (Option β)}
    (h : Unlines (Option.map g) step step') : Unlines (List.map g) (collect step) (collect step') := by
  refine h.bind fun o => ?_
  cases o with
  | none => exact carries_pure rfl
  | some a => exact unlines_place.bind fun left => (unlines_collectWithin h left).last fun _ => rfl

/-! Where the parser takes up again -/

theorem resumeAfter_map (last : Token) (ts : List Token) :
    resumeAfter last.unlined (ts.map Token.unlined) = (resumeAfter last ts).map Token.unlined := by
  induction ts generalizing last with
  | nil => rfl
  | cons t ts ih =>
    show (if last.kind = .semicolon || t.kind.startsStatement then t.unlined :: ts.map Token.unlined
      else resumeAfter t.unlined (ts.map Token.unlined)) = _
    rw [ih t, resumeAfter, apply_ite (List.map Token.unlined), List.map_cons]

theorem resume_map (ts : List Token) : resume (ts.map Token.unlined) = (resume ts).map Token.unlined := by
  cases ts with
  | nil => rfl
  | cons t ts => exact resumeAfter_map t ts

theorem unlines_recovering (h : Unlines g p q) : Unlines (Option.map g) (recovering p) (recovering q) := by
  intro c
  unfold recovering
  rw [h c]
  cases p c with
  | ok a c => rfl
  | error halt c =>
    cases halt with
    | malformed => simp [carried, Cursor.unlined, resume_map]
    | tooDeep => rfl

theorem unlines_limiting {p : Parser (Option α)} {q : Parser (Option β)} (h : Unlines (Option.map g) p q) :
    Unlines (Option.map g) (limiting p) (limiting q) := by
  intro c
  unfold limiting
  rw [h c]
  cases p c with
  | ok a c => rfl
  | error halt c =>
    cases halt with
    | malformed => rfl
    | tooDeep => simp [carried, Cursor.unlined, resume_map, ParseError.unlined]

/-! Combinations -/

theorem unlines_behind (kinds : List TokenKind) (h : Unlines g p q) :
    Unlines (Option.map (Prod.map Token.unlined g)) (behind kinds p) (behind kinds q) := by
  refine (unlines_accept kinds).bind fun o => ?_
  cases o with
  | none => exact carries_pure rfl
  | some t => exact h.last fun _ => rfl

theorem unlines_unlessAt {stop : Parser Bool} (hs : Unlines id stop stop) (h : Unlines g p q) :
    Unlines (Option.map g) (unlessAt stop p) (unlessAt stop q) := by
  refine hs.bind fun b => ?_
  cases b with
  | true => exact carries_pure rfl
  | false => exact h.map fun _ => rfl

theorem unlines_commaSeparated (h : Unlines g p q) :
    Unlines (List.map g) (commaSeparated p) (commaSeparated q) :=
  h.bind fun _ => (unlines_collect (unlines_behind [.comma] h)).last fun rest => by
    simp [Function.comp_def]

theorem unlines_checkLength (items : List α) (problem : ParseProblem) :
    Unlines id (checkLength items problem) (checkLength (items.map g) problem) := by
  unfold checkLength
  rw [List.length_map]
  exact carries_ite (unlines_place.bind fun place => unlines_report place problem) (carries_pure rfl)

theorem unlines_listed (h : Unlines g p q) (problem : ParseProblem) :
    Unlines (List.map g) (listed p problem) (listed q problem) := by
  refine (unlines_unlessAt (unlines_nextIs .rightParen) (unlines_commaSeparated h)).bind fun o => ?_
  have ho : (o.map (List.map g)).getD [] = (o.getD []).map g := by cases o <;> rfl
  rw [ho]
  exact (unlines_checkLength _ problem).bind fun _ => carries_pure rfl

theorem unlines_untilBrace {p : Parser (Option α)} {q : Parser (Option β)} (h : Unlines (Option.map g) p q) :
    Unlines (List.map g) (untilBrace p) (untilBrace q) := by
  have hstop : Unlines id (do return (← nextIs .rightBrace) || (← atEnd))
      (do return (← nextIs .rightBrace) || (← atEnd)) :=
    (unlines_nextIs .rightBrace).bind fun _ => unlines_atEnd.last fun _ => rfl
  refine (unlines_collect (unlines_unlessAt hstop h)).last fun items => ?_
  simp [List.filterMap_map, List.map_filterMap]

/-! Expressions -/

variable {e : Parser Expr} {s : Parser Stmt} {d : Parser (Option Stmt)}

theorem binary_unlined (left : Expr) (rest : List (Token × Expr)) :
    binary left.unlined (rest.map (Prod.map Token.unlined Expr.unlined)) = (binary left rest).unlined := by
  induction rest generalizing left with
  | nil => rfl
  | cons r rest ih => exact ih (.binary left r.1 r.2)

theorem unlines_levels {operand : Parser Expr} (h : Unlines Expr.unlined operand operand)
    (levels : List (List TokenKind)) :
    Unlines Expr.unlined (levels.foldr leftAssoc operand) (levels.foldr leftAssoc operand) := by
  induction levels with
  | nil => exact h
  | cons ops rest ih =>
    exact ih.bind fun first => (unlines_collect (unlines_behind ops ih)).last (binary_unlined first)

theorem unlines_primary (h : Unlines Expr.unlined e e) : Unlines Expr.unlined (primary e) (primary e) := by
  refine (unlines_accept _).bind fun o => ?_
  cases o with
  | none => exact unlines_fail .expression
  | some t =>
    simp only [Option.map_some, Token.unlined_kind]
    split
    case h_6 => exact h.bind fun _ => (unlines_expect .rightParen .groupingEnd).bind fun _ => carries_pure rfl
    all_goals exact carries_pure rfl

def Suffix.unlined : Suffix → Suffix
  | call paren arguments => call paren.unlined (arguments.map Expr.unlined)
  | get name => get name.unlined

theorem apply_unlined (callee : Expr) (x : Suffix) :
    Suffix.apply callee.unlined x.unlined = (Suffix.apply callee x).unlined := by
  cases x with
  | call paren arguments => exact (Expr.unlined_call callee paren arguments).symm
  | get name => rfl

theorem unlines_suffix (h : Unlines Expr.unlined e e) :
    Unlines (Option.map Suffix.unlined) (suffix e) (suffix e) := by
  refine (unlines_accept [.leftParen]).bind fun o => ?_
  cases o with
  | some _ =>
    exact (unlines_listed h .tooManyArguments).bind fun _ =>
      (unlines_expect .rightParen .argumentsEnd).last fun _ => rfl
  | none =>
    refine (unlines_accept [.dot]).bind fun o => ?_
    cases o with
    | some _ => exact (unlines_expect .identifier .propertyName).last fun _ => rfl
    | none => exact carries_pure rfl

theorem foldl_apply_unlined (callee : Expr) (xs : List Suffix) :
    (xs.map Suffix.unlined).foldl Suffix.apply callee.unlined = (xs.foldl Suffix.apply callee).unlined := by
  induction xs generalizing callee with
  | nil => rfl
  | cons x xs ih => rw [List.map_cons, List.foldl_cons, apply_unlined, ih, List.foldl_cons]

theorem unlines_suffixed (h : Unlines Expr.unlined e e) : Unlines Expr.unlined (suffixed e) (suffixed e) :=
  (unlines_primary h).bind fun operand =>
    (unlines_collect (unlines_suffix h)).last (foldl_apply_unlined operand)

theorem assignment?_unlined (target value : Expr) :
    assignment? target.unlined value.unlined = (assignment? target value).map Expr.unlined := by
  cases target <;> rfl

theorem unlines_expressions : ∀ n, Unlines Expr.unlined (expression n) (expression n) ∧
    Unlines Expr.unlined (unary n) (unary n)
  | 0 => ⟨carries_throw rfl, carries_throw rfl⟩
  | n + 1 => by
    obtain ⟨he, hu⟩ := unlines_expressions n
    constructor
    · unfold expression
      refine (unlines_levels hu binaryLevels).bind fun target => unlines_place.bind fun equals =>
        (unlines_accept [.equal]).bind fun o => ?_
      cases o with
      | none => exact carries_pure rfl
      | some _ =>
        refine he.bind fun value => ?_
        rw [assignment?_unlined]
        cases assignment? target value with
        | some e => exact carries_pure rfl
        | none => exact (unlines_report equals .assignmentTarget).bind fun _ => carries_pure rfl
    · unfold unary
      refine (unlines_accept [.bang, .minus]).bind fun o => ?_
      cases o with
      | none => exact unlines_suffixed he
      | some operator => exact hu.last fun _ => rfl

/-! Statements -/

theorem unlines_expressionStatement (h : Unlines Expr.unlined e e) :
    Unlines Stmt.unlined (expressionStatement e) (expressionStatement e) :=
  h.bind fun _ => (unlines_expect .semicolon .expressionEnd).bind fun _ => carries_pure rfl

theorem unlines_varDeclaration (h : Unlines Expr.unlined e e) :
    Unlines Stmt.unlined (varDeclaration e) (varDeclaration e) := by
  refine (unlines_expect .identifier .variableName).bind fun name => (unlines_behind [.equal] h).bind fun o =>
    (unlines_expect .semicolon .variableEnd).bind fun _ => carries_pure ?_
  cases o <;> rfl

theorem unlines_block (h : Unlines (Option.map Stmt.unlined) d d) :
    Unlines (List.map Stmt.unlined) (block d) (block d) :=
  (unlines_untilBrace h).bind fun _ => (unlines_expect .rightBrace .blockEnd).bind fun _ => carries_pure rfl

theorem unlines_functionDeclaration (sort : FunctionSort) (h : Unlines (Option.map Stmt.unlined) d d) :
    Unlines Stmt.unlined (functionDeclaration sort d) (functionDeclaration sort d) :=
  (unlines_expect .identifier (.functionName sort)).bind fun name =>
    (unlines_expect .leftParen (.functionParen sort)).bind fun _ =>
      (unlines_listed (unlines_expect .identifier .parameterName) .tooManyParameters).bind fun params =>
        (unlines_expect .rightParen .parametersEnd).bind fun _ =>
          (unlines_expect .leftBrace (.functionBody sort)).bind fun _ =>
            (unlines_block h).last fun body => (Stmt.unlined_function name params body).symm

theorem unlines_classDeclaration (h : Unlines (Option.map Stmt.unlined) d d) :
    Unlines Stmt.unlined (classDeclaration d) (classDeclaration d) := by
  have hmethod : Unlines (Option.map Stmt.unlined) (some <$> functionDeclaration .method d)
      (some <$> functionDeclaration .method d) := (unlines_functionDeclaration .method h).map fun _ => rfl
  exact (unlines_expect .identifier .className).bind fun name =>
    (unlines_expect .leftBrace .classBody).bind fun _ => (unlines_untilBrace hmethod).bind fun methods =>
      (unlines_expect .rightBrace .classEnd).bind fun _ => carries_pure (Stmt.unlined_class name methods).symm

theorem unlines_loopStart (h : Unlines Expr.unlined e e) :
    Unlines (Option.map Stmt.unlined) (loopStart e) (loopStart e) := by
  refine (unlines_accept [.semicolon, .kwVar]).bind fun o => ?_
  cases o with
  | none => exact (unlines_expressionStatement h).map fun _ => rfl
  | some t => exact carries_ite ((unlines_varDeclaration h).map fun _ => rfl) (carries_pure rfl)

theorem loop_unlined (start : Option Stmt) (condition increment : Option Expr) (body : Stmt) :
    loop (start.map Stmt.unlined) (condition.map Expr.unlined) (increment.map Expr.unlined) body.unlined =
      (loop start condition increment body).unlined := by
  cases start <;> cases condition <;> cases increment <;> rfl

theorem unlines_forStatement (he : Unlines Expr.unlined e e) (hs : Unlines Stmt.unlined s s) :
    Unlines Stmt.unlined (forStatement e s) (forStatement e s) :=
  (unlines_expect .leftParen .forParen).bind fun _ => (unlines_loopStart he).bind fun start =>
    (unlines_unlessAt (unlines_nextIs .semicolon) he).bind fun condition =>
      (unlines_expect .semicolon .forCondition).bind fun _ =>
        (unlines_unlessAt (unlines_nextIs .rightParen) he).bind fun increment =>
          (unlines_expect .rightParen .forEnd).bind fun _ => hs.last (loop_unlined start condition increment)

theorem unlines_ifStatement (he : Unlines Expr.unlined e e) (hs : Unlines Stmt.unlined s s) :
    Unlines Stmt.unlined (ifStatement e s) (ifStatement e s) := by
  refine (unlines_expect .leftParen .ifParen).bind fun _ => he.bind fun _ =>
    (unlines_expect .rightParen .ifEnd).bind fun _ => hs.bind fun _ =>
      (unlines_behind [.kwElse] hs).last fun o => ?_
  cases o <;> rfl

theorem unlines_whileStatement (he : Unlines Expr.unlined e e) (hs : Unlines Stmt.unlined s s) :
    Unlines Stmt.unlined (whileStatement e s) (whileStatement e s) :=
  (unlines_expect .leftParen .whileParen).bind fun _ => he.bind fun _ =>
    (unlines_expect .rightParen .whileEnd).bind fun _ => hs.last fun _ => rfl

theorem unlines_statements : ∀ n, Unlines (Option.map Stmt.unlined) (declaration n) (declaration n) ∧
    Unlines Stmt.unlined (statement n) (statement n)
  | 0 => ⟨carries_throw rfl, carries_throw rfl⟩
  | n + 1 => by
    obtain ⟨hd, hs⟩ := unlines_statements n
    have he := (unlines_expressions n).1
    constructor
    · unfold declaration
      refine unlines_recovering ((unlines_accept _).bind fun o => ?_)
      cases o with
      | none => exact hs
      | some t =>
        simp only [Option.map_some, Token.unlined_kind]
        split
        · exact unlines_classDeclaration hd
        · exact unlines_functionDeclaration .function hd
        · exact unlines_varDeclaration he
    · unfold statement
      refine (unlines_accept _).bind fun o => ?_
      cases o with
      | none => exact unlines_expressionStatement he
      | some t =>
        simp only [Option.map_some, Token.unlined_kind]
        split
        · exact unlines_forStatement he hs
        · exact unlines_ifStatement he hs
        · exact he.bind fun _ => (unlines_expect .semicolon .printEnd).bind fun _ => carries_pure rfl
        · refine (unlines_unlessAt (unlines_nextIs .semicolon) he).bind fun value =>
            (unlines_expect .semicolon .returnEnd).bind fun _ => carries_pure ?_
          exact (Stmt.unlined_return t value).symm
        · exact unlines_whileStatement he hs
        · exact (unlines_block hd).last fun ss => (Stmt.unlined_block ss).symm

theorem unlines_program (n : Nat) : Unlines (List.map Stmt.unlined) (program n) (program n) := by
  refine (unlines_collect (unlines_unlessAt unlines_atEnd (unlines_limiting (unlines_statements n).1))).last
    fun items => ?_
  simp [List.filterMap_map, List.map_filterMap]

end Parser

/-- Of tokens without lines come trees without lines, and errors at places without lines. -/
theorem Program.ofTokens_unlined (depth : Nat) (ts : List Token) :
    Program.ofTokens depth (ts.map Token.unlined) =
      ⟨(Program.ofTokens depth ts).statements.map Stmt.unlined,
        (Program.ofTokens depth ts).errors.map ParseError.unlined⟩ := by
  have h := Parser.unlines_program depth ⟨ts, #[]⟩
  unfold Program.ofTokens
  rw [show (⟨ts.map Token.unlined, #[]⟩ : Cursor) = Cursor.unlined ⟨ts, #[]⟩ by simp [Cursor.unlined], h]
  cases Parser.program depth ⟨ts, #[]⟩ with
  | ok statements c => simp [carried, Cursor.unlined]
  | error halt c => simp [carried, Cursor.unlined]

end Lox
