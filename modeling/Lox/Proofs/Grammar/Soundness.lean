import Lox.Proofs.Grammar.Completeness
import Lox.Proofs.Grammar.Parses

/-! What the parsers accept. The tokens that a parser uses up without a problem are those of a derivation,
which nests no deeper than the parser may and has each `else` at the nearest `if`. There is one law for
each parser, as there is for what it reads. -/

namespace Lox
namespace Phrase

/-- Whether the tokens from `ts` up to `after` are those of a phrase as the parsers find them. -/
def Spans (q : Phrase) (n : Nat) (ts after : List Token) : Prop :=
  ∃ d : Derivation q, ts = d.tokens ++ after ∧ d.nesting ≤ n ∧ d.NearestElse ∧
    (d.EndsOpen → Parser.Avoids [.kwElse] after)

/-- The same for a phrase behind a token of one of `kinds`. -/
def SpansBehind (q : Phrase) (n : Nat) (kinds : List TokenKind) (ts after : List Token) : Prop :=
  ∃ t : Terminal kinds, ∃ us, ts = t.1 :: us ∧ q.Spans n us after

/-- The same for what may follow an operand. -/
inductive SpansSuffix (n : Nat) : List Token → List Token → Prop where
  | call (l : Terminal [.leftParen]) (d : Derivation (.optional (.list .expression)))
    (r : Terminal [.rightParen]) (after : List Token) : d.nesting ≤ n → d.NearestElse →
      SpansSuffix n (l.1 :: (d.tokens ++ r.1 :: after)) after
  | property (dot : Terminal [.dot]) (name : Terminal [.identifier]) (after : List Token) :
      SpansSuffix n (dot.1 :: name.1 :: after) after

/-- Whether a parser uses up derivations of a phrase only. -/
def Accepts {α : Type} (q : Phrase) (parser : Parser α) (n : Nat) : Prop :=
  ∀ ts, parser.Parses ts fun _ after => q.Spans n ts after

variable {q : Phrase} {n : Nat} {ts ts' after : List Token}

theorem spans_of (d : Derivation q) (hq : q.isStatement = false) (ht : ts = d.tokens ++ after)
    (hn : d.nesting ≤ n) (he : d.NearestElse) : q.Spans n ts after :=
  ⟨d, ht, hn, he, fun ho => absurd ho (d.not_endsOpen hq)⟩

theorem Spans.length_lt (h : q.Spans n ts after) (hq : q.nullable = false) :
    after.length < ts.length := by
  obtain ⟨d, rfl, -⟩ := h
  obtain ⟨t, us, ht, -⟩ := d.exists_head hq
  rw [ht, List.length_append, List.length_cons]
  omega

theorem SpansBehind.length_lt {kinds : List TokenKind} (h : q.SpansBehind n kinds ts after) :
    after.length < ts.length := by
  obtain ⟨t, us, rfl, d, rfl, -⟩ := h
  rw [List.length_cons, List.length_append]
  omega

theorem SpansSuffix.length_lt (h : SpansSuffix n ts after) : after.length < ts.length := by
  cases h with
  | call l d r after =>
    rw [List.length_cons, List.length_append, List.length_cons]
    omega
  | property dot name after =>
    rw [List.length_cons, List.length_cons]
    omega

/-- Entries behind commas, and one before them. -/
theorem spans_list (hfirst : q.Spans n ts ts')
    (hrest : Relation.ReflTransGen (q.SpansBehind n [.comma]) ts' after) :
    (list q).Spans n ts after := by
  induction hrest using Relation.ReflTransGen.head_induction_on generalizing ts with
  | refl =>
    obtain ⟨d, ht, hn, he, -⟩ := hfirst
    exact spans_of (.last d) rfl ht hn he
  | head hitem _ ih =>
    obtain ⟨t, us, rfl, hspan⟩ := hitem
    obtain ⟨d, rfl, hn, he, -⟩ := hfirst
    obtain ⟨ds, rfl, hns, hes, -⟩ := ih hspan
    exact spans_of (.more d t ds) rfl (by simp [Derivation.tokens]) (Nat.max_le.2 ⟨hn, hns⟩) ⟨he, hes⟩

/-- Operands behind operators of one level, and one before them. They group to the left. -/
theorem spans_level {ops : List TokenKind} {rest : List (List TokenKind)}
    (hfirst : (level rest).Spans n ts ts')
    (hrest : Relation.ReflTransGen ((level rest).SpansBehind n ops) ts' after) :
    (level (ops :: rest)).Spans n ts after := by
  induction hrest with
  | refl =>
    obtain ⟨d, ht, hn, he, -⟩ := hfirst
    exact spans_of (.single d) rfl ht hn he
  | tail _ hitem ih =>
    obtain ⟨t, us, rfl, e, rfl, hne, hee, -⟩ := hitem
    obtain ⟨d, hd, hn, he, -⟩ := ih
    exact spans_of (.operation d t e) rfl (by simp [hd, Derivation.tokens]) (Nat.max_le.2 ⟨hn, hne⟩)
      ⟨he, hee⟩

theorem spans_call (hfirst : primary.Spans n ts ts')
    (hrest : Relation.ReflTransGen (SpansSuffix n) ts' after) : call.Spans n ts after := by
  induction hrest with
  | refl =>
    obtain ⟨d, ht, hn, he, -⟩ := hfirst
    exact spans_of (.operand d) rfl ht hn he
  | tail _ hitem ih =>
    obtain ⟨d, hd, hn, he, -⟩ := ih
    cases hitem with
    | call l ds r after hns hes =>
      exact spans_of (.application d l ds r) rfl (by simp [hd, Derivation.tokens])
        (Nat.max_le.2 ⟨hn, hns⟩) ⟨he, hes⟩
    | property dot name after =>
      exact spans_of (.property d dot name) rfl (by simp [hd, Derivation.tokens]) hn he

theorem spans_many (h : Relation.ReflTransGen (q.Spans n) ts after) : (many q).Spans n ts after := by
  induction h using Relation.ReflTransGen.head_induction_on with
  | refl => exact spans_of .nothing rfl rfl (Nat.zero_le n) trivial
  | head hitem _ ih =>
    obtain ⟨ds, rfl, hns, hes, -⟩ := ih
    obtain ⟨d, rfl, hn, he, -⟩ := hitem
    exact spans_of (.next d ds) rfl (by simp [Derivation.tokens]) (Nat.max_le.2 ⟨hn, hns⟩) ⟨he, hes⟩

theorem spans_optional {α : Type} {T : List Token → Prop} {o : Option α}
    (h : Parser.Perhaps (q.Spans n) T ts o after) : (optional q).Spans n ts after := by
  cases o with
  | none =>
    obtain ⟨rfl, -⟩ := h
    exact spans_of .absent rfl rfl (Nat.zero_le n) trivial
  | some a =>
    obtain ⟨d, ht, hn, he, -⟩ := h
    exact spans_of (.present d) rfl ht hn he

theorem spans_initializer {α : Type} {o : Option (Token × α)}
    (h : Parser.TakesBehind [.equal] (expression.Spans n) ts o after) :
    (optional initializer).Spans n ts after := by
  cases o with
  | none =>
    obtain ⟨-, rfl⟩ := h
    exact spans_of .absent rfl rfl (Nat.zero_le n) trivial
  | some r =>
    obtain ⟨ht, us, rfl, d, rfl, hn, he, -⟩ := h
    exact spans_of (.present (.initializer ⟨r.1, ht⟩ d)) rfl rfl hn he

/-- A statement and perhaps an `else` behind it, of an `if`. The statement takes no `else` that it could
take, so the one behind it is the `if`'s. -/
theorem spans_branch {α : Type} {o : Option (Token × α)} (k : Terminal [.kwIf])
    (l : Terminal [.leftParen]) (c : Derivation .expression) (hnc : c.nesting ≤ n) (hec : c.NearestElse)
    (r : Terminal [.rightParen]) (ht : statement.Spans n ts ts')
    (hf : Parser.TakesBehind [.kwElse] (statement.Spans n) ts' o after) :
    statement.Spans (n + 1) (k.1 :: l.1 :: (c.tokens ++ r.1 :: ts)) after := by
  obtain ⟨t, rfl, hnt, het, hopen⟩ := ht
  cases o with
  | none =>
    obtain ⟨ha, rfl⟩ := hf
    refine ⟨.branch k l c r t .absent, by simp [Derivation.tokens], ?_, ⟨hec, het⟩, fun _ => ha⟩
    exact Nat.succ_le_succ (Nat.max_le.2 ⟨hnc, Nat.max_le.2 ⟨hnt, Nat.zero_le n⟩⟩)
  | some e =>
    obtain ⟨he, us, rfl, f, rfl, hnf, hef, hopenf⟩ := hf
    have hclosed : ¬ t.EndsOpen := fun ho => Parser.avoids_cons.1 (hopen ho) he
    refine ⟨.branch k l c r t (.present (.alternative ⟨e.1, he⟩ f)), by simp [Derivation.tokens], ?_,
      ⟨hec, het, hclosed, hef⟩, hopenf⟩
    exact Nat.succ_le_succ (Nat.max_le.2 ⟨hnc, Nat.max_le.2 ⟨hnt, hnf⟩⟩)

end Phrase

namespace Parser

open Phrase

variable {q : Phrase} {n : Nat} {ts : List Token}

/-! Expressions -/

section Expressions

variable {α : Type} {item : Parser α} {e : Parser Expr}

theorem parses_step_behind (kinds : List TokenKind) (h : q.Accepts item n) (ts : List Token) :
    Parses (behind kinds item) ts (Perhaps (q.SpansBehind n kinds) (fun _ => True) ts) := by
  refine (parses_behind kinds h).mono fun o after ho => ?_
  cases o with
  | none => exact ⟨ho.2, trivial⟩
  | some r =>
    obtain ⟨hr, us, rfl, hs⟩ := ho
    exact ⟨⟨r.1, hr⟩, us, rfl, hs⟩

theorem parses_unlessNext (kind : TokenKind) {S : List Token → List Token → Prop}
    (h : ∀ ts, Parses item ts fun _ after => S ts after) :
    Parses (unlessAt (nextIs kind) item) ts (Perhaps S (fun _ => True) ts) :=
  parses_unlessAt ((parses_nextIs kind).mono fun _ _ ha => ⟨ha, fun _ => trivial⟩) h

theorem accepts_commaSeparated (h : q.Accepts item n) :
    (Phrase.list q).Accepts (commaSeparated item) n := by
  intro ts
  refine (h ts).bind fun _ _ => (parses_collect (parses_step_behind [.comma] h)
    (fun _ _ => SpansBehind.length_lt) trivial).bind fun _ _ => parses_pure _ ?_
  exact fun hrest hfirst => spans_list hfirst hrest.1

theorem accepts_listed (h : q.Accepts item n) (problem : ParseProblem) :
    (Phrase.optional (.list q)).Accepts (listed item problem) n := by
  intro ts
  refine (parses_unlessNext .rightParen (accepts_commaSeparated h)).bind fun o _ =>
    (parses_checkLength (o.getD []) problem).bind fun _ _ => parses_pure _ ?_
  rintro rfl ho
  exact spans_optional ho

theorem accepts_leftAssoc {ops : List TokenKind} {rest : List (List TokenKind)}
    {operand : Parser Expr} (h : (Phrase.level rest).Accepts operand n) :
    (Phrase.level (ops :: rest)).Accepts (leftAssoc ops operand) n := by
  intro ts
  refine (h ts).bind fun _ _ => (parses_collect (parses_step_behind ops h)
    (fun _ _ => SpansBehind.length_lt) trivial).bind fun _ _ => parses_pure _ ?_
  exact fun hrest hfirst => spans_level hfirst hrest.1

theorem accepts_levels {operand : Parser Expr} (h : Phrase.unary.Accepts operand n) :
    ∀ levels : List (List TokenKind), (Phrase.level levels).Accepts (levels.foldr leftAssoc operand) n
  | [] => fun ts => (h ts).mono fun _ _ ⟨d, ht, hn, he, _⟩ => spans_of (.tightest d) rfl ht hn he
  | _ :: rest => accepts_leftAssoc (accepts_levels h rest)

theorem parses_grouping (h : Phrase.expression.Accepts e n) (ts : List Token) :
    Parses (grouping e) ts fun _ after =>
      ∀ l : Terminal [.leftParen], Phrase.primary.Spans n (l.1 :: ts) after := by
  refine (h ts).bind fun _ _ => (parses_expect .rightParen .groupingEnd rfl).bind fun r _ =>
    parses_pure _ ?_
  rintro ⟨hr, rfl⟩ ⟨d, rfl, hn, he, -⟩ l
  exact spans_of (.grouping l d ⟨r, hr⟩) rfl (by simp [Derivation.tokens]) hn he

theorem accepts_primary (h : Phrase.expression.Accepts e n) : Phrase.primary.Accepts (primary e) n := by
  intro ts
  refine (parses_accept _).bind fun o ts₁ => ?_
  cases o with
  | none => exact parses_fail .expression rfl
  | some t =>
    -- a token that stands alone
    have hsingle (v : Expr) (d : Derivation .primary) (hd : d.tokens = [t]) (hn : d.nesting = 0)
        (he : d.NearestElse) : Parses (pure v) ts₁ fun _ after =>
          Takes operandStarts ts (some t) ts₁ → Phrase.primary.Spans n ts after := by
      refine parses_pure v ?_
      rintro ⟨-, rfl⟩
      exact spans_of d rfl (by rw [hd]; rfl) (hn ▸ Nat.zero_le n) he
    dsimp only
    split
    · next hk => exact hsingle _ (.constant ⟨t, by simp [hk]⟩) rfl rfl (by trivial)
    · next hk => exact hsingle _ (.constant ⟨t, by simp [hk]⟩) rfl rfl (by trivial)
    · next hk => exact hsingle _ (.constant ⟨t, by simp [hk]⟩) rfl rfl (by trivial)
    · next hk => exact hsingle _ (.this ⟨t, by simp [hk]⟩) rfl rfl (by trivial)
    · next hk => exact hsingle _ (.identifier ⟨t, by simp [hk]⟩) rfl rfl (by trivial)
    · next hk =>
      refine (parses_grouping h ts₁).mono fun _ after hs ht => ?_
      obtain ⟨-, rfl⟩ := ht
      exact hs ⟨t, by simp [hk]⟩
    · refine parses_pure _ ?_
      rintro ⟨ht, rfl⟩
      exact spans_of (.constant ⟨t, by simp_all⟩) rfl rfl (by exact Nat.zero_le n) (by trivial)

theorem parses_suffix (h : Phrase.expression.Accepts e n) (ts : List Token) :
    Parses (suffix e) ts (Perhaps (SpansSuffix n) (fun _ => True) ts) := by
  refine (parses_accept [.leftParen]).bind fun o ts₁ => ?_
  cases o with
  | some l =>
    refine (accepts_listed h .tooManyArguments ts₁).bind fun _ _ =>
      (parses_expect .rightParen .argumentsEnd rfl).bind fun r after => parses_pure _ ?_
    rintro ⟨hr, rfl⟩ ⟨d, rfl, hn, he, -⟩ ⟨hl, rfl⟩
    exact .call ⟨l, hl⟩ d ⟨r, hr⟩ after hn he
  | none =>
    refine (parses_accept [.dot]).bind fun o ts₂ => ?_
    cases o with
    | none => exact parses_pure none fun ⟨_, h₂⟩ ⟨_, h₁⟩ => ⟨h₂.trans h₁, trivial⟩
    | some dot =>
      refine (parses_expect .identifier .propertyName rfl).bind fun name after => parses_pure _ ?_
      rintro ⟨hname, rfl⟩ ⟨hdot, rfl⟩ ⟨-, rfl⟩
      exact .property ⟨dot, hdot⟩ ⟨name, hname⟩ after

theorem accepts_suffixed (h : Phrase.expression.Accepts e n) : Phrase.call.Accepts (suffixed e) n := by
  intro ts
  refine (accepts_primary h ts).bind fun _ _ => (parses_collect (parses_suffix h)
    (fun _ _ => SpansSuffix.length_lt) trivial).bind fun _ _ => parses_pure _ ?_
  exact fun hrest hfirst => spans_call hfirst hrest.1

theorem accepts_unary_succ (he : Phrase.expression.Accepts (expression n) n)
    (hu : Phrase.unary.Accepts (unary n) n) : Phrase.unary.Accepts (unary (n + 1)) (n + 1) := by
  intro ts
  unfold unary
  refine (parses_accept [.bang, .minus]).bind fun o ts₁ => ?_
  cases o with
  | none =>
    refine (accepts_suffixed he ts₁).mono ?_
    rintro _ after ⟨d, rfl, hn, he, -⟩ ⟨-, rfl⟩
    exact spans_of (.bare d) rfl rfl (Nat.succ_le_succ hn) he
  | some t =>
    refine (hu ts₁).bind fun _ after => parses_pure _ ?_
    rintro ⟨d, rfl, hn, he, -⟩ ⟨ht, rfl⟩
    exact spans_of (.sign ⟨t, ht⟩ d) rfl rfl (Nat.succ_le_succ hn) he

theorem accepts_expression_succ (he : Phrase.expression.Accepts (expression n) n)
    (hu : Phrase.unary.Accepts (unary n) n) :
    Phrase.expression.Accepts (expression (n + 1)) (n + 1) := by
  intro ts
  unfold expression
  refine (accepts_levels hu operatorLevels ts).bind fun target ts₁ => parses_place.bind fun equals ts₂ =>
    (parses_accept [.equal]).bind fun o ts₃ => ?_
  cases o with
  | none =>
    refine parses_pure target ?_
    rintro ⟨-, rfl⟩ ⟨-, rfl⟩ ⟨d, rfl, hn, he, -⟩
    exact spans_of (.plain d) rfl rfl (Nat.succ_le_succ hn) he
  | some t =>
    refine (he ts₃).bind fun value ts₄ => ?_
    -- the derivation is the same whatever becomes of the target
    have hspan : Phrase.expression.Spans n ts₃ ts₄ → Takes [.equal] ts₂ (some t) ts₃ →
        equals = ts₁ ∧ ts₂ = ts₁ → (Phrase.level operatorLevels).Spans n ts ts₁ →
        Phrase.expression.Spans (n + 1) ts ts₄ := by
      rintro ⟨r, rfl, hnr, her, -⟩ ⟨ht, rfl⟩ ⟨-, rfl⟩ ⟨d, rfl, hn, hd, -⟩
      exact spans_of (.assignment d ⟨t, ht⟩ r) rfl (by simp [Derivation.tokens])
        (Nat.succ_le_succ (Nat.max_le.2 ⟨hn, hnr⟩)) ⟨hd, her⟩
    split
    · exact parses_pure _ hspan
    · refine (parses_report equals .assignmentTarget).bind fun _ ts₅ => parses_pure target ?_
      rintro rfl
      exact hspan

end Expressions

/-! Statements -/

section Statements

variable {e : Parser Expr} {s : Parser Stmt}

theorem accepts_expressionStatement (h : Phrase.expression.Accepts e n) :
    Phrase.exprStatement.Accepts (expressionStatement e) n := by
  intro ts
  refine (h ts).bind fun _ _ => (parses_expect .semicolon .expressionEnd rfl).bind fun t _ =>
    parses_pure _ ?_
  rintro ⟨ht, rfl⟩ ⟨d, rfl, hn, he, -⟩
  exact spans_of (.exprStatement d ⟨t, ht⟩) rfl (by simp [Derivation.tokens]) hn he

theorem parses_varDeclaration (h : Phrase.expression.Accepts e n) (ts : List Token) :
    Parses (varDeclaration e) ts fun _ after =>
      ∀ k : Terminal [.kwVar], Phrase.varDeclaration.Spans n (k.1 :: ts) after := by
  refine (parses_expect .identifier .variableName rfl).bind fun name _ =>
    (parses_behind [.equal] h).bind fun o _ => (parses_expect .semicolon .variableEnd rfl).bind fun t _ =>
      parses_pure _ ?_
  rintro ⟨ht, rfl⟩ ho ⟨hname, rfl⟩ k
  obtain ⟨d, rfl, hn, he, -⟩ := spans_initializer ho
  exact spans_of (.varDeclaration k ⟨name, hname⟩ d ⟨t, ht⟩) rfl (by simp [Derivation.tokens]) hn he

theorem parses_printStatement (h : Phrase.expression.Accepts e n) (ts : List Token) :
    Parses (printStatement e) ts fun _ after =>
      ∀ k : Terminal [.kwPrint], Phrase.statement.Spans (n + 1) (k.1 :: ts) after := by
  refine (h ts).bind fun _ _ => (parses_expect .semicolon .printEnd rfl).bind fun t _ => parses_pure _ ?_
  rintro ⟨ht, rfl⟩ ⟨d, rfl, hn, he, -⟩ k
  exact ⟨.print k d ⟨t, ht⟩, by simp [Derivation.tokens], Nat.succ_le_succ hn, he, False.elim⟩

theorem parses_returnStatement (h : Phrase.expression.Accepts e n) (keyword : Token) (ts : List Token) :
    Parses (returnStatement keyword e) ts fun _ after =>
      ∀ k : Terminal [.kwReturn], Phrase.statement.Spans (n + 1) (k.1 :: ts) after := by
  refine (parses_unlessNext .semicolon h).bind fun o _ =>
    (parses_expect .semicolon .returnEnd rfl).bind fun t _ => parses_pure _ ?_
  rintro ⟨ht, rfl⟩ ho k
  obtain ⟨d, rfl, hn, he, -⟩ := spans_optional ho
  exact ⟨.returning k d ⟨t, ht⟩, by simp [Derivation.tokens], Nat.succ_le_succ hn, he, False.elim⟩

theorem parses_whileStatement (he : Phrase.expression.Accepts e n) (hs : Phrase.statement.Accepts s n)
    (ts : List Token) : Parses (whileStatement e s) ts fun _ after =>
      ∀ k : Terminal [.kwWhile], Phrase.statement.Spans (n + 1) (k.1 :: ts) after := by
  refine (parses_expect .leftParen .whileParen rfl).bind fun l _ => (he _).bind fun _ _ =>
    (parses_expect .rightParen .whileEnd rfl).bind fun r _ => (hs _).bind fun _ _ => parses_pure _ ?_
  rintro ⟨b, rfl, hnb, heb, hopen⟩ ⟨hr, rfl⟩ ⟨c, rfl, hnc, hec, -⟩ ⟨hl, rfl⟩ k
  exact ⟨.whileLoop k ⟨l, hl⟩ c ⟨r, hr⟩ b, by simp [Derivation.tokens],
    Nat.succ_le_succ (Nat.max_le.2 ⟨hnc, hnb⟩), ⟨hec, heb⟩, hopen⟩

theorem parses_ifStatement (he : Phrase.expression.Accepts e n) (hs : Phrase.statement.Accepts s n)
    (ts : List Token) : Parses (ifStatement e s) ts fun _ after =>
      ∀ k : Terminal [.kwIf], Phrase.statement.Spans (n + 1) (k.1 :: ts) after := by
  refine (parses_expect .leftParen .ifParen rfl).bind fun l _ => (he _).bind fun _ _ =>
    (parses_expect .rightParen .ifEnd rfl).bind fun r _ => (hs _).bind fun _ _ =>
      (parses_behind [.kwElse] hs).bind fun o _ => parses_pure _ ?_
  rintro ho ht ⟨hr, rfl⟩ ⟨c, rfl, hnc, hec, -⟩ ⟨hl, rfl⟩ k
  exact spans_branch k ⟨l, hl⟩ c hnc hec ⟨r, hr⟩ ht ho

theorem accepts_loopStart (h : Phrase.expression.Accepts e n) :
    Phrase.loopStart.Accepts (loopStart e) n := by
  intro ts
  refine (parses_accept [.semicolon, .kwVar]).bind fun o ts₁ => ?_
  cases o with
  | none =>
    refine Parses.map ((accepts_expressionStatement h ts₁).mono ?_)
    rintro _ after ⟨d, rfl, hn, he, -⟩ ⟨-, rfl⟩
    exact spans_of (.startExpression d) rfl rfl hn he
  | some t =>
    dsimp only
    split
    · next hk =>
      refine Parses.map ((parses_varDeclaration h ts₁).mono fun _ after hs ht => ?_)
      obtain ⟨-, rfl⟩ := ht
      obtain ⟨d, hd, hn, he, -⟩ := hs ⟨t, by simp [hk]⟩
      exact spans_of (.startVariable d) rfl hd hn he
    · refine parses_pure none ?_
      rintro ⟨ht, rfl⟩
      exact spans_of (.startNothing ⟨t, by simp_all⟩) rfl rfl (by exact Nat.zero_le n) (by trivial)

theorem parses_forStatement (he : Phrase.expression.Accepts e n) (hs : Phrase.statement.Accepts s n)
    (ts : List Token) : Parses (forStatement e s) ts fun _ after =>
      ∀ k : Terminal [.kwFor], Phrase.statement.Spans (n + 1) (k.1 :: ts) after := by
  refine (parses_expect .leftParen .forParen rfl).bind fun l _ => (accepts_loopStart he _).bind fun _ _ =>
    (parses_unlessNext .semicolon he).bind fun o _ =>
      (parses_expect .semicolon .forCondition rfl).bind fun t _ =>
        (parses_unlessNext .rightParen he).bind fun o' _ =>
          (parses_expect .rightParen .forEnd rfl).bind fun r _ => (hs _).bind fun _ _ => parses_pure _ ?_
  rintro ⟨b, rfl, hnb, heb, hopen⟩ ⟨hr, rfl⟩ hi ⟨ht, rfl⟩ hc ⟨st, rfl, hns, hes, -⟩ ⟨hl, rfl⟩ k
  obtain ⟨i, rfl, hni, hei, -⟩ := spans_optional hi
  obtain ⟨c, rfl, hnc, hec, -⟩ := spans_optional hc
  exact ⟨.forLoop k ⟨l, hl⟩ st c ⟨t, ht⟩ i ⟨r, hr⟩ b, by simp [Derivation.tokens], Nat.succ_le_succ
    (Nat.max_le.2 ⟨hns, Nat.max_le.2 ⟨hnc, Nat.max_le.2 ⟨hni, hnb⟩⟩⟩), ⟨hes, hec, hei, heb⟩, hopen⟩

end Statements

/-! Blocks and declarations -/

section Blocks

variable {α : Type} {item : Parser (Option α)} {declaration : Parser (Option Stmt)}

theorem accepts_untilBrace (h : q.Accepts item n) (hq : q.nullable = false) :
    (Phrase.many q).Accepts (untilBrace item) n := by
  intro ts
  have hstop (ts : List Token) : Parses (do return (← nextIs .rightBrace) || (← atEnd)) ts
      fun b after => after = ts ∧ (b = true → True) := by
    refine (parses_nextIs .rightBrace).bind fun _ _ => parses_atEnd.bind fun _ _ => parses_pure _ ?_
    exact fun h₂ h₁ => ⟨h₂.2.trans h₁, fun _ => trivial⟩
  refine (parses_collect (fun ts => parses_unlessAt (hstop ts) h) (fun _ _ hs => hs.length_lt hq)
    trivial).bind fun _ _ => parses_pure _ ?_
  exact fun hitems => spans_many hitems.1

theorem parses_block (h : Phrase.declaration.Accepts declaration n) (ts : List Token) :
    Parses (block declaration) ts fun _ after =>
      ∀ l : Terminal [.leftBrace], Phrase.block.Spans n (l.1 :: ts) after := by
  refine (accepts_untilBrace h rfl ts).bind fun _ _ =>
    (parses_expect .rightBrace .blockEnd rfl).bind fun r _ => parses_pure _ ?_
  rintro ⟨hr, rfl⟩ ⟨d, rfl, hn, he, -⟩ l
  exact spans_of (.block l d ⟨r, hr⟩) rfl (by simp [Derivation.tokens]) hn he

theorem accepts_name (problem : ParseProblem) (h : problem.isMild = false) :
    Phrase.name.Accepts (expect .identifier problem) n := by
  intro ts
  refine (parses_expect .identifier problem h).mono ?_
  rintro t after ⟨ht, rfl⟩
  exact spans_of (.name ⟨t, ht⟩) rfl rfl (Nat.zero_le n) trivial

theorem accepts_functionDeclaration (sort : FunctionSort)
    (h : Phrase.declaration.Accepts declaration n) :
    Phrase.function.Accepts (functionDeclaration sort declaration) n := by
  intro ts
  refine (parses_expect .identifier (.functionName sort) rfl).bind fun name _ =>
    (parses_expect .leftParen (.functionParen sort) rfl).bind fun l _ =>
      (accepts_listed (accepts_name (n := n) .parameterName rfl) .tooManyParameters _).bind fun _ _ =>
        (parses_expect .rightParen .parametersEnd rfl).bind fun r _ =>
          (parses_expect .leftBrace (.functionBody sort) rfl).bind fun lb _ =>
            (parses_block h _).bind fun _ _ => parses_pure _ ?_
  rintro hbody ⟨hlb, rfl⟩ ⟨hr, rfl⟩ ⟨ps, rfl, hnp, hep, -⟩ ⟨hl, rfl⟩ ⟨hname, rfl⟩
  obtain ⟨body, hb, hnb, heb, -⟩ := hbody ⟨lb, hlb⟩
  exact spans_of (.function ⟨name, hname⟩ ⟨l, hl⟩ ps ⟨r, hr⟩ body) rfl
    (by simp [Derivation.tokens, ← hb]) (Nat.max_le.2 ⟨hnp, hnb⟩) ⟨hep, heb⟩

theorem parses_classDeclaration (h : Phrase.declaration.Accepts declaration n) (ts : List Token) :
    Parses (classDeclaration declaration) ts fun _ after =>
      ∀ k : Terminal [.kwClass], Phrase.declaration.Spans (n + 1) (k.1 :: ts) after := by
  have hmethod : Phrase.function.Accepts (some <$> functionDeclaration .method declaration) n :=
    fun ts => Parses.map (accepts_functionDeclaration .method h ts)
  refine (parses_expect .identifier .className rfl).bind fun name _ =>
    (parses_expect .leftBrace .classBody rfl).bind fun l _ => (accepts_untilBrace hmethod rfl _).bind
      fun _ _ => (parses_expect .rightBrace .classEnd rfl).bind fun r _ => parses_pure _ ?_
  rintro ⟨hr, rfl⟩ ⟨d, rfl, hn, he, -⟩ ⟨hl, rfl⟩ ⟨hname, rfl⟩ k
  exact ⟨.classDeclaration k ⟨name, hname⟩ ⟨l, hl⟩ d ⟨r, hr⟩, by simp [Derivation.tokens],
    Nat.succ_le_succ hn, he, False.elim⟩

end Blocks

/-! The recursion -/

/-- What the parsers of all sorts of phrase accept at one depth. -/
structure AcceptsAll (n : Nat) : Prop where
  expression : Phrase.expression.Accepts (expression n) n
  unary : Phrase.unary.Accepts (unary n) n
  statement : Phrase.statement.Accepts (statement n) n
  declaration : Phrase.declaration.Accepts (declaration n) n

theorem accepts_statement_succ (h : AcceptsAll n) :
    Phrase.statement.Accepts (statement (n + 1)) (n + 1) := by
  intro ts
  unfold statement
  refine (parses_accept _).bind fun o ts₁ => ?_
  cases o with
  | none =>
    refine (accepts_expressionStatement h.expression ts₁).mono ?_
    rintro _ after ⟨d, rfl, hn, he, -⟩ ⟨-, rfl⟩
    exact ⟨.expression d, rfl, Nat.succ_le_succ hn, he, False.elim⟩
  | some t =>
    dsimp only
    split
    · next hk =>
      refine (parses_forStatement h.expression h.statement ts₁).mono fun _ after hs ht => ?_
      obtain ⟨-, rfl⟩ := ht
      exact hs ⟨t, by simp [hk]⟩
    · next hk =>
      refine (parses_ifStatement h.expression h.statement ts₁).mono fun _ after hs ht => ?_
      obtain ⟨-, rfl⟩ := ht
      exact hs ⟨t, by simp [hk]⟩
    · next hk =>
      refine (parses_printStatement h.expression ts₁).mono fun _ after hs ht => ?_
      obtain ⟨-, rfl⟩ := ht
      exact hs ⟨t, by simp [hk]⟩
    · next hk =>
      refine (parses_returnStatement h.expression t ts₁).mono fun _ after hs ht => ?_
      obtain ⟨-, rfl⟩ := ht
      exact hs ⟨t, by simp [hk]⟩
    · next hk =>
      refine (parses_whileStatement h.expression h.statement ts₁).mono fun _ after hs ht => ?_
      obtain ⟨-, rfl⟩ := ht
      exact hs ⟨t, by simp [hk]⟩
    · refine (parses_block h.declaration ts₁).bind fun _ after => parses_pure _ fun hs ht => ?_
      obtain ⟨hk, rfl⟩ := ht
      obtain ⟨d, hd, hn, he, -⟩ := hs ⟨t, by simp_all⟩
      exact ⟨.nested d, hd, Nat.succ_le_succ hn, he, False.elim⟩

theorem accepts_declaration_succ (h : AcceptsAll n) :
    Phrase.declaration.Accepts (declaration (n + 1)) (n + 1) := by
  intro ts
  unfold declaration
  refine Parses.recovering ((parses_accept _).bind fun o ts₁ => ?_)
  cases o with
  | none =>
    refine (h.statement ts₁).mono ?_
    rintro _ after ⟨d, rfl, hn, he, hopen⟩ ⟨-, rfl⟩
    exact ⟨.statement d, rfl, Nat.succ_le_succ hn, he, hopen⟩
  | some t =>
    dsimp only
    split
    · next hk =>
      refine (parses_classDeclaration h.declaration ts₁).mono fun _ after hs ht => ?_
      obtain ⟨-, rfl⟩ := ht
      exact hs ⟨t, by simp [hk]⟩
    · next hk =>
      refine (accepts_functionDeclaration .function h.declaration ts₁).mono fun _ after hs ht => ?_
      obtain ⟨-, rfl⟩ := ht
      obtain ⟨k, rfl⟩ : ∃ k : Terminal [.kwFun], k.1 = t := ⟨⟨t, by simp [hk]⟩, rfl⟩
      obtain ⟨d, rfl, hn, he, -⟩ := hs
      exact ⟨.funDeclaration k d, rfl, Nat.succ_le_succ hn, he, False.elim⟩
    · refine (parses_varDeclaration h.expression ts₁).mono fun _ after hs ht => ?_
      obtain ⟨hk, rfl⟩ := ht
      obtain ⟨d, hd, hn, he, -⟩ := hs ⟨t, by simp_all⟩
      exact ⟨.variable d, hd, Nat.succ_le_succ hn, he, False.elim⟩

theorem acceptsAll : ∀ n, AcceptsAll n
  | 0 => ⟨fun _ => parses_tooDeep, fun _ => parses_tooDeep, fun _ => parses_tooDeep,
      fun _ => parses_tooDeep⟩
  | n + 1 =>
    have h := acceptsAll n
    ⟨accepts_expression_succ h.expression h.unary, accepts_unary_succ h.expression h.unary,
      accepts_statement_succ h, accepts_declaration_succ h⟩

/-- All tokens of a program are used up. -/
theorem parses_program (n : Nat) (ts : List Token) :
    Parses (program n) ts fun _ after => after = [] ∧ (Phrase.many .declaration).Spans n ts after := by
  have hstep (ts : List Token) : Parses (unlessAt atEnd (limiting (declaration n))) ts
      (Perhaps (Phrase.declaration.Spans n) (· = []) ts) := by
    refine parses_unlessAt (parses_atEnd.mono ?_) fun ts => ((acceptsAll n).declaration ts).limiting
    rintro b after ⟨rfl, rfl⟩
    exact ⟨rfl, List.isEmpty_iff.1⟩
  refine (parses_collect hstep (fun _ _ hs => hs.length_lt rfl) rfl).bind fun _ _ => parses_pure _ ?_
  exact fun h => ⟨h.2, spans_many h.1⟩

theorem answers_limiting_declaration (n : Nat) : Answers (limiting (declaration n)) := by
  cases n with
  | zero => exact fun c => ⟨none, _, rfl⟩
  | succ n => exact answers_limiting_recovering _

theorem answers_program (n : Nat) : Answers (program n) := by
  have hstep : Answers (unlessAt atEnd (limiting (declaration n))) := by
    refine Answers.bind (fun c => ⟨c.rest.isEmpty, c, rfl⟩) fun b => ?_
    cases b with
    | true => exact answers_pure none
    | false => exact (answers_limiting_declaration n).map
  exact (answers_collect hstep).bind fun items => answers_pure _

end Parser

/-- A program without a problem that breaks it off is a sentence. -/
theorem Program.exists_derivation (depth : Nat) (ts : List Token)
    (h : Mild (Program.ofTokens depth ts).errors.toArray) :
    ∃ d : Derivation (.many .declaration), d.tokens = ts ∧ d.nesting ≤ depth ∧ d.NearestElse := by
  obtain ⟨statements, c, hok⟩ := Parser.answers_program depth ⟨ts, #[]⟩
  have hparses := Parser.parses_program depth ts #[]
  rw [hok] at hparses
  obtain ⟨es, hes, hspan⟩ := hparses
  have hmild : Mild es := by
    unfold Program.ofTokens at h
    rw [hok] at h
    simpa [hes] using h
  obtain ⟨hrest, d, rfl, hn, he, -⟩ := hspan hmild
  exact ⟨d, by rw [hrest, List.append_nil], hn, he⟩

/-- A program in which nothing is wrong is a sentence of which nothing is to be said, and what is read is its tree. -/
theorem Program.exists_sentence {depth : Nat} {ts : List Token} (h : (Program.ofTokens depth ts).errors = []) :
    ∃ d : Derivation (.many .declaration), d.tokens = ts ∧ d.nesting ≤ depth ∧ d.NearestElse ∧ d.diagnostics = [] ∧
      (Program.ofTokens depth ts).statements = d.value := by
  have hmild : Mild (Program.ofTokens depth ts).errors.toArray := by
    rw [h]
    exact mild_empty
  obtain ⟨d, rfl, hn, he⟩ := exists_derivation depth ts hmild
  obtain ⟨hvalue, hdiagnostics⟩ := ofTokens_derivation d hn he
  refine ⟨d, rfl, hn, he, ?_, hvalue⟩
  rw [← hdiagnostics 0, h]
  rfl

/-- One statement in which nothing is wrong is read of one declaration. -/
theorem Program.exists_declaration {depth : Nat} {ts : List Token} {s : Stmt}
    (h : Program.ofTokens depth ts = ⟨[s], []⟩) :
    ∃ d : Derivation .declaration, d.tokens = ts ∧ d.nesting ≤ depth ∧ d.NearestElse ∧ d.diagnostics = [] ∧
      d.value = s := by
  obtain ⟨d, hd, hn, he, hnone, hvalue⟩ := exists_sentence (congrArg Program.errors h)
  have hone : d.value = [s] := hvalue.symm.trans (congrArg Program.statements h)
  cases d with
  | nothing => nomatch hone
  | next d rest =>
    cases rest with
    | next => nomatch hone
    | nothing =>
      exact ⟨d, by simpa [Derivation.tokens] using hd, (Nat.max_le.1 hn).1, he.1, (List.append_eq_nil_iff.1 hnone).1,
        (List.cons.inj hone).1⟩

end Lox
