import Lox.Proofs.Tree.Parsed

/-! What parsers build, whatever the tokens are and however often they recover. `Yields P p Q` says that
from tokens of which `P` holds `p` gives nothing but what `Q` says, and leaves such tokens. -/

namespace Lox
namespace Parser

variable {P : Token → Prop} {α β : Type} {p : Parser α} {f : α → Parser β} {Q : α → Prop} {R : β → Prop}

/-- What a run ends in. -/
def EndsWith (P : Token → Prop) (Q : α → Prop) : EStateM.Result Halt Cursor α → Prop
  | .ok a c => Q a ∧ ∀ t ∈ c.rest, P t
  | .error _ c => ∀ t ∈ c.rest, P t

def Yields (P : Token → Prop) (p : Parser α) (Q : α → Prop) : Prop :=
  ∀ c : Cursor, (∀ t ∈ c.rest, P t) → EndsWith P Q (p c)

theorem Yields.mono {Q' : α → Prop} (h : Yields P p Q) (hq : ∀ a, Q a → Q' a) : Yields P p Q' := by
  intro c hc
  have hp := h c hc
  cases hr : p c with
  | ok a c' => rw [hr] at hp; exact ⟨hq a hp.1, hp.2⟩
  | error e c' => rwa [hr] at hp

theorem Yields.bind (h : Yields P p Q) (hf : ∀ a, Q a → Yields P (f a) R) : Yields P (p >>= f) R := by
  intro c hc
  have hp := h c hc
  show EndsWith P R (EStateM.bind p f c)
  unfold EStateM.bind
  cases hr : p c with
  | ok a c' => rw [hr] at hp; exact hf a hp.1 c' hp.2
  | error e c' => rwa [hr] at hp

theorem yields_pure (a : α) (h : Q a) : Yields P (pure a) Q := fun _ hc => ⟨h, hc⟩

theorem yields_throw (halt : Halt) : Yields P (throw halt : Parser α) Q := fun _ hc => hc

theorem Yields.map {g : α → β} (h : Yields P p fun a => R (g a)) : Yields P (g <$> p) R := by
  intro c hc
  have hp := h c hc
  show EndsWith P R (EStateM.map g p c)
  unfold EStateM.map
  cases hr : p c <;> rwa [hr] at hp

theorem yields_place : Yields P place fun _ => True := fun _ hc => ⟨trivial, hc⟩

theorem yields_nextIs (kind : TokenKind) : Yields P (nextIs kind) fun _ => True := fun _ hc => ⟨trivial, hc⟩

theorem yields_atEnd : Yields P atEnd fun _ => True := fun _ hc => ⟨trivial, hc⟩

theorem yields_report (place : List Token) (problem : ParseProblem) :
    Yields P (report place problem) fun _ => True := fun _ hc => ⟨trivial, hc⟩

theorem yields_fail (problem : ParseProblem) : Yields P (fail problem : Parser α) Q := fun _ hc => hc

theorem yields_accept (kinds : List TokenKind) :
    Yields P (accept kinds) fun o => ∀ t ∈ o, t.kind ∈ kinds ∧ P t := by
  intro c hc
  obtain ⟨ts, errors⟩ := c
  unfold accept
  cases ts with
  | nil => exact ⟨fun _ h => (nomatch h), hc⟩
  | cons t ts =>
    by_cases ht : t.kind ∈ kinds
    · simp only [if_pos ht]
      exact ⟨fun _ h => Option.some.inj h ▸ ⟨ht, hc t (by simp)⟩, fun u hu => hc u (List.mem_cons_of_mem t hu)⟩
    · simp only [if_neg ht]
      exact ⟨fun _ h => (nomatch h), hc⟩

theorem yields_expect (kind : TokenKind) (problem : ParseProblem) :
    Yields P (expect kind problem) fun t => t.kind = kind ∧ P t := by
  refine (yields_accept [kind]).bind fun o ho => ?_
  cases o with
  | none => exact yields_fail problem
  | some t => exact yields_pure t ⟨List.mem_singleton.1 (ho t rfl).1, (ho t rfl).2⟩

theorem yields_behind (kinds : List TokenKind) (h : Yields P p Q) :
    Yields P (behind kinds p) fun o => ∀ r ∈ o, (r.1.kind ∈ kinds ∧ P r.1) ∧ Q r.2 := by
  refine (yields_accept kinds).bind fun o ho => ?_
  cases o with
  | none => exact yields_pure none fun _ h => nomatch h
  | some t =>
    refine h.bind fun a ha => yields_pure (some (t, a)) fun r hr => ?_
    obtain rfl := Option.some.inj hr
    exact ⟨ho t rfl, ha⟩

theorem yields_unlessAt {stop : Parser Bool} (hs : Yields P stop fun _ => True) (h : Yields P p Q) :
    Yields P (unlessAt stop p) fun o => ∀ a ∈ o, Q a := by
  refine hs.bind fun b _ => ?_
  cases b with
  | true => exact yields_pure none fun _ h => nomatch h
  | false => exact Yields.map (h.mono fun a ha _ hm => Option.some.inj hm ▸ ha)

theorem yields_collectWithin {step : Parser (Option α)} (h : Yields P step fun o => ∀ a ∈ o, Q a)
    (left : List Token) : Yields P (collectWithin step left) fun as => ∀ a ∈ as, Q a := by
  induction left with
  | nil => exact yields_pure [] nofun
  | cons _ left ih =>
    refine h.bind fun o ho => ?_
    cases o with
    | none => exact yields_pure [] nofun
    | some a => exact ih.bind fun as has => yields_pure (a :: as) (List.forall_mem_cons.2 ⟨ho a rfl, has⟩)

theorem yields_collect {step : Parser (Option α)} (h : Yields P step fun o => ∀ a ∈ o, Q a) :
    Yields P (collect step) fun as => ∀ a ∈ as, Q a := by
  refine h.bind fun o ho => ?_
  cases o with
  | none => exact yields_pure [] nofun
  | some a =>
    exact yields_place.bind fun place _ => (yields_collectWithin h place).bind fun as has =>
      yields_pure (a :: as) (List.forall_mem_cons.2 ⟨ho a rfl, has⟩)

/-- Dropped tokens leave none that were not there. -/
theorem Yields.recovering (h : Yields P p Q) : Yields P (recovering p) fun o => ∀ a ∈ o, Q a := by
  intro c hc
  have hp := h c hc
  unfold Parser.recovering
  cases hr : p c with
  | ok a c' => rw [hr] at hp; exact ⟨fun _ hm => Option.some.inj hm ▸ hp.1, hp.2⟩
  | error halt c' =>
    rw [hr] at hp
    cases halt with
    | tooDeep => exact hp
    | malformed =>
      exact ⟨nofun, fun t ht => hp t (List.mem_of_mem_tail ((resume_suffix c'.rest).subset ht))⟩

theorem Yields.limiting {p : Parser (Option α)} (h : Yields P p fun o => ∀ a ∈ o, Q a) :
    Yields P (limiting p) fun o => ∀ a ∈ o, Q a := by
  intro c hc
  have hp := h c hc
  unfold Parser.limiting
  cases hr : p c with
  | ok a c' => rwa [hr] at hp
  | error halt c' =>
    rw [hr] at hp
    cases halt with
    | malformed => exact hp
    | tooDeep =>
      exact ⟨nofun, fun t ht => hp t (List.mem_of_mem_tail ((resume_suffix c'.rest).subset ht))⟩

/-! Expressions -/

section Expressions

variable {item : Parser α} {e : Parser Expr}

theorem yields_commaSeparated (h : Yields P item Q) :
    Yields P (commaSeparated item) fun as => ∀ a ∈ as, Q a := by
  refine h.bind fun first hfirst => (yields_collect (yields_behind [.comma] h)).bind fun rest hrest =>
    yields_pure _ (List.forall_mem_cons.2 ⟨hfirst, fun a ha => ?_⟩)
  obtain ⟨r, hr, rfl⟩ := List.mem_map.1 ha
  exact (hrest r hr).2

theorem yields_checkLength (items : List α) (problem : ParseProblem) :
    Yields P (checkLength items problem) fun _ => True := by
  unfold checkLength
  split
  · exact yields_place.bind fun place _ => yields_report place problem
  · exact yields_pure () trivial

theorem yields_listed (h : Yields P item Q) (problem : ParseProblem) :
    Yields P (listed item problem) fun as => ∀ a ∈ as, Q a := by
  refine (yields_unlessAt (yields_nextIs .rightParen) (yields_commaSeparated h)).bind fun o ho =>
    (yields_checkLength (o.getD []) problem).bind fun _ _ => yields_pure _ ?_
  cases o with
  | none => exact nofun
  | some as => exact ho as rfl

theorem parsed_binary {kinds : List TokenKind} (hk : kinds ⊆ binaryLevels.flatten)
    (rest : List (Token × Expr)) : ∀ left : Expr, left.Parsed P →
      (∀ r ∈ rest, (r.1.kind ∈ kinds ∧ P r.1) ∧ r.2.Parsed P) → (binary left rest).Parsed P := by
  induction rest with
  | nil => exact fun left hl _ => hl
  | cons r rest ih =>
    intro left hl hr
    obtain ⟨hfirst, hr⟩ := List.forall_mem_cons.1 hr
    exact ih _ (.binary (hk hfirst.1.1) hfirst.1.2 hl hfirst.2) hr

theorem yields_levels {operand : Parser Expr} (h : Yields P operand (Expr.Parsed P)) :
    ∀ levels : List (List TokenKind), levels.flatten ⊆ binaryLevels.flatten →
      Yields P (levels.foldr leftAssoc operand) (Expr.Parsed P)
  | [], _ => h
  | ops :: rest, hk => by
    rw [List.flatten_cons, List.append_subset] at hk
    have hoperand := yields_levels h rest hk.2
    exact hoperand.bind fun first hfirst => (yields_collect (yields_behind ops hoperand)).bind
      fun more hmore => yields_pure _ (parsed_binary hk.1 more first hfirst hmore)

theorem yields_primary (h : Yields P e (Expr.Parsed P)) : Yields P (primary e) (Expr.Parsed P) := by
  refine (yields_accept _).bind fun o ho => ?_
  cases o with
  | none => exact yields_fail .expression
  | some t =>
    obtain ⟨-, ht⟩ := ho t rfl
    dsimp only
    split
    · exact yields_pure _ (.literal (Literal.isRead_bool P false))
    · exact yields_pure _ (.literal (Literal.isRead_bool P true))
    · exact yields_pure _ (.literal (Literal.isRead_nil P))
    · next hk => exact yields_pure _ (.this hk ht)
    · next hk => exact yields_pure _ (.variable ⟨hk, ht⟩)
    · exact h.bind fun inner hi => (yields_expect .rightParen .groupingEnd).bind fun _ _ =>
        yields_pure _ (.grouping hi)
    · exact yields_pure _ (.literal fun x hx => ⟨t, ht, hx⟩)

/-- Whether a suffix may follow an operand. -/
def Suffix.Parsed (P : Token → Prop) : Suffix → Prop
  | call paren arguments => (paren.kind = .rightParen ∧ P paren) ∧ ∀ e ∈ arguments, e.Parsed P
  | get name => name.IsName P

theorem parsed_suffixes (suffixes : List Suffix) : ∀ operand : Expr, operand.Parsed P →
    (∀ s ∈ suffixes, s.Parsed P) → (suffixes.foldl Suffix.apply operand).Parsed P := by
  induction suffixes with
  | nil => exact fun operand ho _ => ho
  | cons s rest ih =>
    intro operand ho hs
    obtain ⟨hfirst, hs⟩ := List.forall_mem_cons.1 hs
    refine ih _ ?_ hs
    cases s with
    | call paren arguments => exact .call ho hfirst.1.1 hfirst.1.2 hfirst.2
    | get name => exact .get hfirst ho

theorem yields_suffix (h : Yields P e (Expr.Parsed P)) :
    Yields P (suffix e) fun o => ∀ s ∈ o, s.Parsed P := by
  refine (yields_accept [.leftParen]).bind fun o _ => ?_
  cases o with
  | some _ =>
    exact (yields_listed h .tooManyArguments).bind fun arguments ha =>
      (yields_expect .rightParen .argumentsEnd).bind fun paren hp =>
        yields_pure _ fun _ hm => Option.some.inj hm ▸ ⟨hp, ha⟩
  | none =>
    refine (yields_accept [.dot]).bind fun o _ => ?_
    cases o with
    | some _ =>
      exact (yields_expect .identifier .propertyName).bind fun name hn =>
        yields_pure _ fun _ hm => Option.some.inj hm ▸ hn
    | none => exact yields_pure none fun _ h => nomatch h

theorem yields_suffixed (h : Yields P e (Expr.Parsed P)) : Yields P (suffixed e) (Expr.Parsed P) :=
  (yields_primary h).bind fun operand ho => (yields_collect (yields_suffix h)).bind fun suffixes hs =>
    yields_pure _ (parsed_suffixes suffixes operand ho hs)

theorem parsed_assignment {target value e : Expr} (ht : target.Parsed P) (hv : value.Parsed P)
    (he : assignment? target value = some e) : e.Parsed P := by
  unfold assignment? at he
  split at he
  · obtain rfl := Option.some.inj he
    cases ht with
    | «variable» hn => exact .assign hn hv
  · obtain rfl := Option.some.inj he
    cases ht with
    | get hn ho => exact .set hn ho hv
  · cases he

theorem yields_expressions (P : Token → Prop) : ∀ n, Yields P (expression n) (Expr.Parsed P) ∧
    Yields P (unary n) (Expr.Parsed P)
  | 0 => ⟨yields_throw .tooDeep, yields_throw .tooDeep⟩
  | n + 1 => by
    obtain ⟨he, hu⟩ := yields_expressions P n
    constructor
    · unfold expression
      refine (yields_levels hu binaryLevels (List.Subset.refl _)).bind fun target ht =>
        yields_place.bind fun equals _ => (yields_accept [.equal]).bind fun o _ => ?_
      cases o with
      | none => exact yields_pure target ht
      | some _ =>
        refine he.bind fun value hv => ?_
        split
        · next ha => exact yields_pure _ (parsed_assignment ht hv ha)
        · exact (yields_report equals .assignmentTarget).bind fun _ _ => yields_pure target ht
    · unfold unary
      refine (yields_accept [.bang, .minus]).bind fun o ho => ?_
      cases o with
      | none => exact yields_suffixed he
      | some operator => exact hu.bind fun right hr => yields_pure _ (.unary (ho operator rfl).1 (ho operator rfl).2 hr)

end Expressions

/-! Statements -/

section Statements

variable {e : Parser Expr} {s : Parser Stmt} {declaration : Parser (Option Stmt)}

theorem yields_expressionStatement (h : Yields P e (Expr.Parsed P)) :
    Yields P (expressionStatement e) fun s => s.Parsed P ∧ s.declares = [] :=
  h.bind fun _ hi => (yields_expect .semicolon .expressionEnd).bind fun _ _ =>
    yields_pure _ ⟨.expression hi, rfl⟩

theorem yields_varDeclaration (h : Yields P e (Expr.Parsed P)) :
    Yields P (varDeclaration e) (Stmt.Parsed P) := by
  refine (yields_expect .identifier .variableName).bind fun name hn =>
    (yields_behind [.equal] h).bind fun o ho => (yields_expect .semicolon .variableEnd).bind fun _ _ =>
      yields_pure _ (.var hn fun e he => ?_)
  obtain ⟨r, rfl, rfl⟩ := Option.map_eq_some_iff.1 he
  exact (ho r rfl).2

theorem parsed_loop {initializer : Option Stmt} {condition increment : Option Expr} {body : Stmt}
    (hi : ∀ s ∈ initializer, s.Parsed P) (hc : ∀ e ∈ condition, e.Parsed P)
    (hn : ∀ e ∈ increment, e.Parsed P) (hb : body.Parsed P ∧ body.declares = []) :
    (loop initializer condition increment body).Parsed P ∧
      (loop initializer condition increment body).declares = [] := by
  have hcondition : (condition.getD (.literal (.bool true))).Parsed P := by
    cases condition with
    | none => exact .literal (Literal.isRead_bool P true)
    | some e => exact hc e rfl
  -- the body with the increment behind it
  have hbody : ∃ b : Stmt, loop initializer condition increment body =
      Option.elim initializer (.while (condition.getD (.literal (.bool true))) b)
        (fun s => .block [s, .while (condition.getD (.literal (.bool true))) b]) ∧
      b.Parsed P ∧ b.declares = [] := by
    cases increment with
    | none => exact ⟨body, by cases initializer <;> rfl, hb⟩
    | some e =>
      refine ⟨.block [body, .expression e], by cases initializer <;> rfl, .block ?_, rfl⟩
      simp [hb.1, Stmt.Parsed.expression (hn e rfl)]
  obtain ⟨b, heq, hb, hd⟩ := hbody
  rw [heq]
  cases initializer with
  | none => exact ⟨.while hcondition hb hd, rfl⟩
  | some s =>
    refine ⟨.block ?_, rfl⟩
    simp [hi s rfl, Stmt.Parsed.while hcondition hb hd]

theorem yields_loopStart (h : Yields P e (Expr.Parsed P)) :
    Yields P (loopStart e) fun o => ∀ s ∈ o, s.Parsed P := by
  refine (yields_accept [.semicolon, .kwVar]).bind fun o _ => ?_
  cases o with
  | none => exact Yields.map ((yields_expressionStatement h).mono fun s hs _ hm => Option.some.inj hm ▸ hs.1)
  | some t =>
    dsimp only
    split
    · exact Yields.map ((yields_varDeclaration h).mono fun s hs _ hm => Option.some.inj hm ▸ hs)
    · exact yields_pure none fun _ h => nomatch h

theorem yields_forStatement (he : Yields P e (Expr.Parsed P))
    (hs : Yields P s fun s => s.Parsed P ∧ s.declares = []) :
    Yields P (forStatement e s) fun s => s.Parsed P ∧ s.declares = [] :=
  (yields_expect .leftParen .forParen).bind fun _ _ => (yields_loopStart he).bind fun _ hi =>
    (yields_unlessAt (yields_nextIs .semicolon) he).bind fun _ hc =>
      (yields_expect .semicolon .forCondition).bind fun _ _ =>
        (yields_unlessAt (yields_nextIs .rightParen) he).bind fun _ hn =>
          (yields_expect .rightParen .forEnd).bind fun _ _ => hs.bind fun _ hb =>
            yields_pure _ (parsed_loop hi hc hn hb)

theorem yields_ifStatement (he : Yields P e (Expr.Parsed P))
    (hs : Yields P s fun s => s.Parsed P ∧ s.declares = []) :
    Yields P (ifStatement e s) fun s => s.Parsed P ∧ s.declares = [] := by
  refine (yields_expect .leftParen .ifParen).bind fun _ _ => he.bind fun _ hc =>
    (yields_expect .rightParen .ifEnd).bind fun _ _ => hs.bind fun _ ht =>
      (yields_behind [.kwElse] hs).bind fun o ho => yields_pure _ ⟨.branch hc ht.1 ht.2 ?_ ?_, rfl⟩
  · intro s hm
    obtain ⟨r, rfl, rfl⟩ := Option.map_eq_some_iff.1 hm
    exact (ho r rfl).2.1
  · intro s hm
    obtain ⟨r, rfl, rfl⟩ := Option.map_eq_some_iff.1 hm
    exact (ho r rfl).2.2

theorem yields_whileStatement (he : Yields P e (Expr.Parsed P))
    (hs : Yields P s fun s => s.Parsed P ∧ s.declares = []) :
    Yields P (whileStatement e s) fun s => s.Parsed P ∧ s.declares = [] :=
  (yields_expect .leftParen .whileParen).bind fun _ _ => he.bind fun _ hc =>
    (yields_expect .rightParen .whileEnd).bind fun _ _ => hs.bind fun _ hb =>
      yields_pure _ ⟨.while hc hb.1 hb.2, rfl⟩

theorem yields_untilBrace {item : Parser (Option α)} (h : Yields P item fun o => ∀ a ∈ o, Q a) :
    Yields P (untilBrace item) fun as => ∀ a ∈ as, Q a := by
  have hstop : Yields P (do return (← nextIs .rightBrace) || (← atEnd)) fun _ => True :=
    (yields_nextIs .rightBrace).bind fun _ _ => yields_atEnd.bind fun _ _ => yields_pure _ trivial
  refine (yields_collect (yields_unlessAt hstop h)).bind fun items hi => yields_pure _ fun a ha => ?_
  obtain ⟨o, ho, hoa⟩ := List.mem_filterMap.1 ha
  exact hi o ho a hoa

theorem yields_block (h : Yields P declaration fun o => ∀ s ∈ o, s.Parsed P) :
    Yields P (block declaration) fun ss => ∀ s ∈ ss, s.Parsed P :=
  (yields_untilBrace h).bind fun _ hs => (yields_expect .rightBrace .blockEnd).bind fun _ _ =>
    yields_pure _ hs

theorem yields_functionDeclaration (sort : FunctionSort)
    (h : Yields P declaration fun o => ∀ s ∈ o, s.Parsed P) :
    Yields P (functionDeclaration sort declaration) fun s =>
      (∃ d : Declaration, s = d.statement) ∧ s.Parsed P :=
  (yields_expect .identifier (.functionName sort)).bind fun name hn =>
    (yields_expect .leftParen (.functionParen sort)).bind fun _ _ =>
      (yields_listed (yields_expect .identifier .parameterName) .tooManyParameters).bind fun params hp =>
        (yields_expect .rightParen .parametersEnd).bind fun _ _ =>
          (yields_expect .leftBrace (.functionBody sort)).bind fun _ _ => (yields_block h).bind
            fun body hb => yields_pure _ ⟨⟨⟨name, params, body⟩, rfl⟩, .function hn hp hb⟩

theorem yields_classDeclaration (h : Yields P declaration fun o => ∀ s ∈ o, s.Parsed P) :
    Yields P (classDeclaration declaration) (Stmt.Parsed P) := by
  have hmethod : Yields P (some <$> functionDeclaration .method declaration) fun o =>
      ∀ s ∈ o, (∃ d : Declaration, s = d.statement) ∧ s.Parsed P :=
    Yields.map ((yields_functionDeclaration .method h).mono fun s hs _ hm => Option.some.inj hm ▸ hs)
  exact (yields_expect .identifier .className).bind fun name hn =>
    (yields_expect .leftBrace .classBody).bind fun _ _ => (yields_untilBrace hmethod).bind
      fun methods hm => (yields_expect .rightBrace .classEnd).bind fun _ _ =>
        yields_pure _ (.class hn (fun s hs => (hm s hs).2) fun s hs => (hm s hs).1)

end Statements

theorem yields_statements (P : Token → Prop) : ∀ n,
    Yields P (declaration n) (fun o => ∀ s ∈ o, s.Parsed P) ∧
      Yields P (statement n) fun s => s.Parsed P ∧ s.declares = []
  | 0 => ⟨yields_throw .tooDeep, yields_throw .tooDeep⟩
  | n + 1 => by
    obtain ⟨hd, hs⟩ := yields_statements P n
    have he : Yields P (expression n) (Expr.Parsed P) := (yields_expressions P n).1
    constructor
    · unfold declaration
      refine Yields.recovering ((yields_accept _).bind fun o _ => ?_)
      cases o with
      | none => exact hs.mono fun _ h => h.1
      | some t =>
        dsimp only
        split
        · exact yields_classDeclaration hd
        · exact (yields_functionDeclaration .function hd).mono fun _ h => h.2
        · exact yields_varDeclaration he
    · unfold statement
      refine (yields_accept _).bind fun o ho => ?_
      cases o with
      | none => exact yields_expressionStatement he
      | some t =>
        obtain ⟨-, ht⟩ := ho t rfl
        dsimp only
        split
        · exact yields_forStatement he hs
        · exact yields_ifStatement he hs
        · exact he.bind fun _ hi => (yields_expect .semicolon .printEnd).bind fun _ _ =>
            yields_pure _ ⟨.print hi, rfl⟩
        · next hk =>
          exact (yields_unlessAt (yields_nextIs .semicolon) he).bind fun _ hv =>
            (yields_expect .semicolon .returnEnd).bind fun _ _ => yields_pure _ ⟨.return hk ht hv, rfl⟩
        · exact yields_whileStatement he hs
        · exact (yields_block hd).bind fun _ hb => yields_pure _ ⟨.block hb, rfl⟩

theorem yields_program (P : Token → Prop) (n : Nat) :
    Yields P (program n) fun ss => ∀ s ∈ ss, s.Parsed P := by
  refine (yields_collect (yields_unlessAt yields_atEnd (yields_statements P n).1.limiting)).bind
    fun items hi => yields_pure _ fun s hs => ?_
  obtain ⟨o, ho, hos⟩ := List.mem_filterMap.1 hs
  exact hi o ho s hos

end Parser

variable {P : Token → Prop} {depth : Nat} {ts : List Token}

/-- Every statement of a parsed program is well formed, whatever was wrong with the rest. -/
theorem Program.parsed_ofTokens (hts : ∀ t ∈ ts, P t) :
    ∀ s ∈ (Program.ofTokens depth ts).statements, s.Parsed P := by
  have h := Parser.yields_program P depth ⟨ts, #[]⟩ hts
  unfold Program.ofTokens
  cases hr : Parser.program depth ⟨ts, #[]⟩ with
  | ok statements c => rw [hr] at h; exact h.1
  | error halt c => exact nofun

theorem Program.formed_ofTokens (hts : ∀ t ∈ ts, P t) :
    ∀ s ∈ (Program.ofTokens depth ts).statements, s.Formed P :=
  fun s hs => (Program.parsed_ofTokens hts s hs).formed

theorem ParsedExpression.formed_ofTokens (hts : ∀ t ∈ ts, P t) :
    ∀ e ∈ (ParsedExpression.ofTokens depth ts).result, e.Formed P := by
  have h := (Parser.yields_expressions P depth).1 ⟨ts, #[]⟩ hts
  unfold ParsedExpression.ofTokens
  cases hr : Parser.expression depth ⟨ts, #[]⟩ with
  | ok e c => rw [hr] at h; exact fun _ hm => Option.some.inj hm ▸ h.1.formed
  | error halt c => cases halt <;> exact nofun

end Lox
