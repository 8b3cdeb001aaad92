import Lox.Proofs.Grammar.Reads

/-! What the parsers make of sentences. From the tokens of a derivation each reads its value and says its
diagnostics, if it may nest deeply enough and nothing follows that the phrase would take up. There is one
law for each parser, from the laws of the parsers inside it. -/

namespace Lox
namespace Phrase

/-- The kinds that an operand can begin with. -/
def operandStarts : List TokenKind :=
  [.kwFalse, .kwTrue, .kwNil, .number, .string, .kwThis, .identifier, .leftParen]

/-- The kinds that a phrase can begin with. -/
def starts : Phrase → List TokenKind
  | name | function => [.identifier]
  | primary | call => operandStarts
  | unary | level _ | expression | exprStatement => [.bang, .minus] ++ operandStarts
  | initializer => [.equal]
  | optional p | list p | many p => p.starts
  | varDeclaration => [.kwVar]
  | loopStart => [.kwVar, .semicolon, .bang, .minus] ++ operandStarts
  | block => [.leftBrace]
  | alternative => [.kwElse]
  | statement =>
    [.kwFor, .kwIf, .kwPrint, .kwReturn, .kwWhile, .leftBrace, .bang, .minus] ++ operandStarts
  | declaration =>
    [.kwClass, .kwFun, .kwVar, .kwFor, .kwIf, .kwPrint, .kwReturn, .kwWhile, .leftBrace, .bang,
      .minus] ++ operandStarts

/-- Whether a phrase can be empty. -/
def nullable : Phrase → Bool
  | optional _ | many _ => true
  | list p => p.nullable
  | _ => false

/-- Whether a phrase can end in an `if`. -/
def isStatement : Phrase → Bool
  | statement | declaration => true
  | _ => false

/-- The kinds that a phrase takes up when they follow it. -/
def takes : Phrase → List TokenKind
  | call | unary => [.leftParen, .dot]
  | level levels => levels.flatten ++ [.leftParen, .dot]
  | expression => .equal :: (operatorLevels.flatten ++ [.leftParen, .dot])
  | list p => .comma :: p.takes
  | _ => []

end Phrase

namespace Derivation

variable {q : Phrase}

theorem mem_of_subset {k : TokenKind} {kinds kinds' : List TokenKind} (h : k ∈ kinds)
    (hk : kinds ⊆ kinds') : k ∈ kinds' := hk h

theorem exists_head_append {kinds kinds' : List TokenKind} {ts : List Token} (us : List Token)
    (h : ∃ t vs, ts = t :: vs ∧ t.kind ∈ kinds) (hk : kinds ⊆ kinds') :
    ∃ t vs, ts ++ us = t :: vs ∧ t.kind ∈ kinds' := by
  obtain ⟨t, vs, rfl, ht⟩ := h
  exact ⟨t, vs ++ us, rfl, hk ht⟩

theorem exists_head (d : Derivation q) (hq : q.nullable = false) :
    ∃ t ts, d.tokens = t :: ts ∧ t.kind ∈ q.starts := by
  induction d with
  | absent | nothing | present | next => cases hq
  | name t | constant t | this t | identifier t | startNothing t | grouping t | sign t | initializer t
  | alternative t | funDeclaration t | varDeclaration t | block t | print t | returning t | branch t
  | whileLoop t | forLoop t | function t | classDeclaration t =>
    exact ⟨t.1, _, rfl, mem_of_subset t.2 (by decide)⟩
  | operand _ ih | bare _ ih | tightest _ ih | plain _ ih | startVariable _ ih | startExpression _ ih
  | expression _ ih | nested _ ih | statement _ ih | «variable» _ ih =>
    obtain ⟨t, ts, h, hk⟩ := ih rfl
    exact ⟨t, ts, h, mem_of_subset hk (by decide)⟩
  | single _ ih => exact ih rfl
  | last _ ih => exact ih hq
  | more _ _ _ ih => exact exists_head_append _ (ih hq) (List.Subset.refl _)
  | operation _ _ _ ih => exact exists_head_append _ (ih rfl) (List.Subset.refl _)
  | application _ _ _ _ ih | property _ _ _ ih | assignment _ _ _ ih | exprStatement _ _ ih =>
    exact exists_head_append _ (ih rfl) (by decide)

theorem not_endsOpen (d : Derivation q) (hq : q.isStatement = false) : ¬ d.EndsOpen := by
  cases d <;> first | exact id | cases hq

/-- Whether `after` begins with nothing that the phrase before it would take up. -/
def Stops (d : Derivation q) (after : List Token) : Prop :=
  Parser.Avoids q.takes after ∧ (d.EndsOpen → Parser.Avoids [.kwElse] after)

end Derivation

namespace Parser

variable {q : Phrase} {n : Nat} {kinds kinds' : List TokenKind} {ts after : List Token}

theorem avoids_terminal (t : Terminal kinds) (h : ∀ k ∈ kinds, k ∉ kinds') :
    Avoids kinds' (t.1 :: ts) := avoids_cons.2 (h _ t.2)

/-- A phrase that cannot be empty begins with none of the kinds that it never begins with. -/
theorem avoids_tokens (d : Derivation q) (hq : q.nullable = false) (h : ∀ k ∈ q.starts, k ∉ kinds) :
    Avoids kinds (d.tokens ++ after) := by
  obtain ⟨t, ts, ht, hk⟩ := d.exists_head hq
  rw [ht, List.cons_append, avoids_cons]
  exact h _ hk

theorem stops_terminal (d : Derivation q) (t : Terminal kinds) (h : ∀ k ∈ kinds, k ∉ .kwElse :: q.takes) :
    d.Stops (t.1 :: ts) :=
  ⟨avoids_terminal t fun k hk hm => h k hk (List.mem_cons_of_mem _ hm),
    fun _ => avoids_terminal t fun k hk hm => h k hk (by simp_all)⟩

theorem stops_of_avoids (d : Derivation q) (hq : q.isStatement = false) (h : Avoids q.takes after) :
    d.Stops after := ⟨h, fun ho => absurd ho (d.not_endsOpen hq)⟩

end Parser

/-- Whether a parser that may nest `n` deep reads all derivations of a phrase that do. -/
def Phrase.Covers (q : Phrase) (parser : Parser q.Tree) (n : Nat) : Prop :=
  ∀ d : Derivation q, d.nesting ≤ n → d.NearestElse → ∀ after, d.Stops after →
    parser.Reads (d.tokens ++ after) d.value d.diagnostics after

/-- The same for a parser that may give no result. -/
def Phrase.CoversSome (q : Phrase) (parser : Parser (Option q.Tree)) (n : Nat) : Prop :=
  ∀ d : Derivation q, d.nesting ≤ n → d.NearestElse → ∀ after, d.Stops after →
    parser.Reads (d.tokens ++ after) (some d.value) d.diagnostics after

namespace Parser

variable {q : Phrase} {n : Nat} {after : List Token}

/-! Lists -/

section Lists

variable {item : Parser q.Tree}

/-- A list is a first entry and a loop over the others. -/
theorem exists_chain_list (h : q.Covers item n) (hq : q.isStatement = false) (hc : .comma ∉ q.takes) :
    (d : Derivation (.list q)) → d.nesting ≤ n → d.NearestElse → ∀ after, d.Stops after →
      ∃ a as, Chain item (behind [.comma] item) (d.tokens ++ after) a as d.diagnostics after ∧
        d.value = a :: as.map Prod.snd
  | .last d, hn, he, after, hs => by
    have hd := h d hn he after (stops_of_avoids d hq (hs.1.mono (List.subset_cons_self _ _)))
    have hstop : Avoids [.comma] after := hs.1.mono (by simp [Phrase.takes])
    exact ⟨d.value, [], ⟨d.diagnostics, [], after, hd, by simp, .stop (reads_behind_none item hstop),
      by simp; rfl⟩, rfl⟩
  | .more d t rest, hn, he, after, hs => by
    obtain ⟨hd, hr⟩ := Nat.max_le.1 hn
    obtain ⟨a, as, ⟨ds₁, ds₂, ts, h₁, hl, h₂, hds⟩, ha⟩ := exists_chain_list h hq hc rest hr he.2 after
      (stops_of_avoids rest rfl hs.1)
    have hd := h d hd he.1 (t.1 :: (rest.tokens ++ after)) (stops_of_avoids d hq
      (avoids_terminal t fun k hk => by simp_all))
    refine ⟨d.value, (t.1, a) :: as, ⟨d.diagnostics, ds₁ ++ ds₂, _, ?_, ?_,
      .turn (reads_behind t h₁) ?_ h₂, ?_⟩, ?_⟩
    · simpa [Derivation.tokens] using hd
    · simp [Derivation.tokens]
    · simp only [List.length_cons]; omega
    · rw [← hds]; rfl
    · rw [List.map_cons, ← ha]; rfl

theorem covers_commaSeparated (h : q.Covers item n) (hq : q.isStatement = false)
    (hc : .comma ∉ q.takes) : (Phrase.list q).Covers (commaSeparated item) n := by
  intro d hn he after hs
  obtain ⟨a, as, hchain, ha⟩ := exists_chain_list h hq hc d hn he after hs
  rw [ha]
  exact hchain.reads

/-- The check of a list's length, with its message at the parenthesis that stands next. -/
theorem reads_checkLength {α : Type} (items : List α) (problem : ParseProblem) (entries : String)
    (hm : problem.message = s!"Can't have 255 or more {entries}.") (t : Token) (ts : List Token) :
    Reads (checkLength items problem) (t :: ts) () (Derivation.overlong items.length entries t)
      (t :: ts) := by
  unfold checkLength Derivation.overlong
  by_cases h : 255 ≤ items.length
  · rw [if_pos h, if_pos (show maxArguments ≤ items.length from h), ← hm]
    exact (reads_place (t :: ts)).then (reads_report t ts (t :: ts) problem)
  · rw [if_neg h, if_neg (show ¬ maxArguments ≤ items.length from h)]
    exact reads_pure _ _

theorem reads_listed (h : q.Covers item n) (hq : q.isStatement = false) (hnull : q.nullable = false)
    (hc : .comma ∉ q.takes) (hr : .rightParen ∉ q.takes) (hrs : .rightParen ∉ q.starts)
    (problem : ParseProblem) (entries : String)
    (hm : problem.message = s!"Can't have 255 or more {entries}.")
    (d : Derivation (.optional (.list q))) (hn : d.nesting ≤ n) (he : d.NearestElse)
    (right : Terminal [.rightParen]) (after : List Token) :
    Reads (listed item problem) (d.tokens ++ right.1 :: after) (d.value.getD [])
      (d.diagnostics ++ Derivation.overlong (d.value.getD []).length entries right.1)
      (right.1 :: after) := by
  have hcheck (items : List q.Tree) : Reads (do checkLength items problem; pure items)
      (right.1 :: after) items (Derivation.overlong items.length entries right.1) (right.1 :: after) :=
    (reads_checkLength items problem entries hm right.1 after).last (g := fun _ => items)
  unfold listed
  cases d with
  | absent =>
    exact (reads_unlessAt_none _ (reads_nextIs_true right after)).then (hcheck [])
  | present d =>
    have hnext : Avoids [.rightParen] (d.tokens ++ right.1 :: after) :=
      avoids_tokens d hnull fun k hk hm => hrs (List.mem_singleton.1 hm ▸ hk)
    have hread := covers_commaSeparated h hq hc d hn he (right.1 :: after)
      (stops_of_avoids d rfl (avoids_terminal right (by simp_all [Phrase.takes])))
    exact (reads_unlessAt (reads_nextIs_false hnext) hread).bind (hcheck d.value)

end Lists

/-! Chains of operators, calls and properties -/

section Chains

/-- Operators of one level: the first operand, and a loop over the others that any operators behind them
join. -/
theorem exists_chain_level {ops : List TokenKind} {rest : List (List TokenKind)} {operand : Parser Expr}
    (h : (Phrase.level rest).Covers operand n) (hops : ∀ k ∈ ops, k ∉ (Phrase.level rest).takes) :
    (d : Derivation (.level (ops :: rest))) → d.nesting ≤ n → d.NearestElse →
      ∀ {after more ds after'}, Avoids (Phrase.level rest).takes after →
        Collects (behind ops operand) after more ds after' →
        ∃ e es, Chain operand (behind ops operand) (d.tokens ++ after) e es
          (d.diagnostics ++ ds) after' ∧ binary e es = binary d.value more
  | .single d, hn, he, after, more, ds, after', ha, hc =>
    ⟨d.value, more, ⟨d.diagnostics, ds, after, h d hn he after (stops_of_avoids d rfl ha),
      by simp [Derivation.tokens], hc, rfl⟩, rfl⟩
  | .operation l t r, hn, he, after, more, ds, after', ha, hc => by
    obtain ⟨hl, hr⟩ := Nat.max_le.1 hn
    have hr := h r hr he.2 after (stops_of_avoids r rfl ha)
    obtain ⟨e, es, hchain, hes⟩ := exists_chain_level h hops l hl he.1 (avoids_terminal t hops)
      (.turn (reads_behind t hr) (by simp only [List.length_append, List.length_cons]; omega) hc)
    refine ⟨e, es, ?_, hes⟩
    simpa [Derivation.tokens, Derivation.diagnostics] using hchain

theorem covers_leftAssoc {ops : List TokenKind} {rest : List (List TokenKind)} {operand : Parser Expr}
    (h : (Phrase.level rest).Covers operand n) (hops : ∀ k ∈ ops, k ∉ (Phrase.level rest).takes) :
    (Phrase.level (ops :: rest)).Covers (leftAssoc ops operand) n := by
  intro d hn he after hs
  have hstop : Avoids ops after ∧ Avoids (Phrase.level rest).takes after := by
    refine ⟨hs.1.mono ?_, hs.1.mono ?_⟩ <;> simp [Phrase.takes]
  obtain ⟨e, es, hchain, hes⟩ := exists_chain_level h hops d hn he hstop.2
    (.stop (reads_behind_none operand hstop.1))
  have hread := hchain.reads (g := binary)
  rw [hes, List.append_nil] at hread
  exact hread

/-- All the levels. No operator stands on two of them. -/
theorem covers_levels {operand : Parser Expr} (h : Phrase.unary.Covers operand n) :
    ∀ levels : List (List TokenKind), (levels.flatten ++ [TokenKind.leftParen, .dot]).Nodup →
      (Phrase.level levels).Covers (levels.foldr leftAssoc operand) n
  | [], _ => fun d hn he after hs => by
    cases d with
    | tightest d => exact h d hn he after ⟨hs.1, fun ho => absurd ho (d.not_endsOpen rfl)⟩
  | ops :: rest, hd => by
    rw [List.flatten_cons, List.append_assoc, List.nodup_append] at hd
    exact covers_leftAssoc (covers_levels h rest hd.2.1) fun k hk hm => hd.2.2 k hk k hm rfl

theorem covers_primary {e : Parser Expr} (h : Phrase.expression.Covers e n) :
    Phrase.primary.Covers (primary e) n := by
  intro d hn he after hs
  unfold primary
  cases d with
  | constant t =>
    refine (reads_accept t (by decide) after).then ?_
    obtain ⟨⟨kind, lexeme, literal, line⟩, hk⟩ := t
    simp only [List.mem_cons, List.not_mem_nil, or_false] at hk
    rcases hk with rfl | rfl | rfl | rfl | rfl <;> exact reads_pure _ after
  | this t =>
    refine (reads_accept t (by decide) after).then ?_
    simp only [List.mem_singleton.1 t.2]
    exact reads_pure _ after
  | identifier t =>
    refine (reads_accept t (by decide) after).then ?_
    simp only [List.mem_singleton.1 t.2]
    exact reads_pure _ after
  | grouping l d r =>
    have hd := h d hn he (r.1 :: after) (stops_terminal d r (by decide))
    simp only [Derivation.tokens, List.cons_append, List.append_assoc]
    refine (reads_accept l (by decide) _).then ?_
    simp only [List.mem_singleton.1 l.2]
    exact hd.finish ((reads_expect r after).then (reads_pure _ after))

theorem reads_suffix_call {e : Parser Expr} (h : Phrase.expression.Covers e n)
    (l : Terminal [.leftParen]) (d : Derivation (.optional (.list .expression))) (hn : d.nesting ≤ n)
    (he : d.NearestElse) (r : Terminal [.rightParen]) (after : List Token) :
    Reads (suffix e) (l.1 :: (d.tokens ++ r.1 :: after)) (some (.call r.1 (d.value.getD [])))
      (d.diagnostics ++ Derivation.overlong (d.value.getD []).length "arguments" r.1) after := by
  have hlist := reads_listed h rfl rfl (by decide) (by decide) (by decide) .tooManyArguments "arguments"
    rfl d hn he r after
  exact (reads_accept l (List.Subset.refl _) _).then (hlist.finish ((reads_expect r after).then (reads_pure _ after)))

theorem reads_suffix_get (e : Parser Expr) (dot : Terminal [.dot]) (name : Terminal [.identifier])
    (after : List Token) :
    Reads (suffix e) (dot.1 :: name.1 :: after) (some (.get name.1)) [] after := by
  have hparen : Avoids [.leftParen] (dot.1 :: name.1 :: after) := avoids_terminal dot (by decide)
  exact (reads_accept_none hparen).then ((reads_accept dot (List.Subset.refl _) _).then (reads_expect name after).last)

theorem reads_suffix_none (e : Parser Expr) (h : Avoids [.leftParen, .dot] after) :
    Reads (suffix e) after none [] after :=
  (reads_accept_none (h.mono (by simp))).then
    ((reads_accept_none (h.mono (by simp))).then (reads_pure none after))

theorem exists_chain_call {e : Parser Expr} (h : Phrase.expression.Covers e n) :
    (d : Derivation .call) → d.nesting ≤ n → d.NearestElse →
      ∀ {after more ds after'}, Collects (suffix e) after more ds after' →
        ∃ f ss, Chain (primary e) (suffix e) (d.tokens ++ after) f ss (d.diagnostics ++ ds) after' ∧
          ss.foldl Suffix.apply f = more.foldl Suffix.apply d.value
  | .operand d, hn, he, after, more, ds, after', hc =>
    ⟨d.value, more, ⟨d.diagnostics, ds, after, covers_primary h d hn he after
      (stops_of_avoids d rfl fun _ _ => List.not_mem_nil), by simp [Derivation.tokens], hc, rfl⟩, rfl⟩
  | .application d l args r, hn, he, after, more, ds, after', hc => by
    obtain ⟨hd, ha⟩ := Nat.max_le.1 hn
    have hs := reads_suffix_call h l args ha he.2 r after
    obtain ⟨f, ss, hchain, hss⟩ := exists_chain_call h d hd he.1
      (.turn hs (by simp only [List.length_append, List.length_cons]; omega) hc)
    refine ⟨f, ss, ?_, hss⟩
    simpa [Derivation.tokens, Derivation.diagnostics] using hchain
  | .property d dot name, hn, he, after, more, ds, after', hc => by
    obtain ⟨f, ss, hchain, hss⟩ := exists_chain_call h d hn he
      (.turn (reads_suffix_get e dot name after) (by simp only [List.length_cons]; omega) hc)
    refine ⟨f, ss, ?_, hss⟩
    simpa [Derivation.tokens, Derivation.diagnostics] using hchain

theorem covers_suffixed {e : Parser Expr} (h : Phrase.expression.Covers e n) :
    Phrase.call.Covers (suffixed e) n := by
  intro d hn he after hs
  obtain ⟨f, ss, hchain, hss⟩ := exists_chain_call h d hn he (.stop (reads_suffix_none e hs.1))
  have hread := hchain.reads (g := fun f ss => ss.foldl Suffix.apply f)
  rw [hss, List.append_nil] at hread
  exact hread

end Chains

/-! Expressions -/

theorem covers_unary_succ (h : Phrase.expression.Covers (expression n) n)
    (hu : Phrase.unary.Covers (unary n) n) : Phrase.unary.Covers (unary (n + 1)) (n + 1) := by
  intro d hn he after hs
  unfold unary
  cases d with
  | bare d =>
    have hsign : Avoids [.bang, .minus] (d.tokens ++ after) := avoids_tokens d rfl (by decide)
    exact (reads_accept_none hsign).then
      (covers_suffixed h d (Nat.le_of_succ_le_succ hn) he after (stops_of_avoids d rfl hs.1))
  | sign t d =>
    exact (reads_accept t (List.Subset.refl _) _).then
      (hu d (Nat.le_of_succ_le_succ hn) he after (stops_of_avoids d rfl hs.1)).last

theorem reads_assignment (target value : Expr) (t : Token) (ts after : List Token) :
    Reads (match assignment? target value with
      | some e => pure e
      | none => do
        report (t :: ts) .assignmentTarget
        pure target) after (Derivation.assigned target value) (Derivation.misassigned target t) after := by
  cases target with
  | «variable» | get => exact reads_pure _ after
  | _ => exact (reads_report t ts after .assignmentTarget).last (g := fun _ => _)

theorem covers_expression_succ (h : Phrase.expression.Covers (expression n) n)
    (hu : Phrase.unary.Covers (unary n) n) :
    Phrase.expression.Covers (expression (n + 1)) (n + 1) := by
  have hlevels : (Phrase.level operatorLevels).Covers (operatorLevels.foldr leftAssoc (unary n)) n :=
    covers_levels hu operatorLevels (by decide)
  intro d hn he after hs
  unfold expression
  cases d with
  | plain d =>
    have hd := hlevels d (Nat.le_of_succ_le_succ hn) he after
      (stops_of_avoids d rfl (hs.1.mono (List.subset_cons_self _ _)))
    have hstop : Avoids [.equal] after := hs.1.mono (by simp [Phrase.takes])
    exact hd.finish ((reads_place after).then ((reads_accept_none hstop).then (reads_pure _ after)))
  | assignment d t v =>
    obtain ⟨hd, hv⟩ := Nat.max_le.1 (Nat.le_of_succ_le_succ hn)
    have hd := hlevels d hd he.1 (t.1 :: (v.tokens ++ after)) (stops_terminal d t (by decide))
    have hv := h v hv he.2 after (stops_of_avoids v rfl hs.1)
    simp only [Derivation.tokens, Derivation.diagnostics, List.append_assoc, List.cons_append]
    exact hd.bind ((reads_place _).then ((reads_accept t (List.Subset.refl _) _).then (hv.bind
      (reads_assignment d.value v.value t.1 (v.tokens ++ after) after))))

/-! Statements -/

section Statements

variable {e : Parser Expr} {s : Parser Stmt}

theorem covers_expressionStatement (h : Phrase.expression.Covers e n) :
    Phrase.exprStatement.Covers (expressionStatement e) n := by
  intro d hn he after hs
  cases d with
  | exprStatement d t =>
    have hd := h d hn he (t.1 :: after) (stops_terminal d t (by decide))
    simp only [Derivation.tokens, List.append_assoc, List.singleton_append]
    exact hd.finish ((reads_expect t after).then (reads_pure _ after))

theorem reads_varDeclaration (h : Phrase.expression.Covers e n) (name : Terminal [.identifier])
    (d : Derivation (.optional .initializer)) (hn : d.nesting ≤ n) (he : d.NearestElse)
    (t : Terminal [.semicolon]) (after : List Token) :
    Reads (varDeclaration e) (name.1 :: (d.tokens ++ t.1 :: after)) (.var name.1 d.value) d.diagnostics
      after := by
  unfold varDeclaration
  refine (reads_expect name _).then ?_
  cases d with
  | absent =>
    have hstop : Avoids [.equal] (t.1 :: after) := avoids_terminal t (by decide)
    exact (reads_behind_none e hstop).then ((reads_expect t after).then (reads_pure _ after))
  | present d =>
    cases d with
    | initializer q d =>
      have hd := h d hn he (t.1 :: after) (stops_terminal d t (by decide))
      exact (reads_behind q hd).finish ((reads_expect t after).then (reads_pure _ after))

/-- A phrase that may be missing before a mark, at which it cannot begin. -/
theorem reads_unlessNext {q : Phrase} {item : Parser q.Tree} {kind : TokenKind} (h : q.Covers item n)
    (hnull : q.nullable = false) (hstart : kind ∉ q.starts) (htakes : kind ∉ .kwElse :: q.takes)
    (d : Derivation (.optional q)) (hn : d.nesting ≤ n) (he : d.NearestElse) (t : Terminal [kind])
    (after : List Token) :
    Reads (unlessAt (nextIs kind) item) (d.tokens ++ t.1 :: after) d.value d.diagnostics
      (t.1 :: after) := by
  cases d with
  | absent => exact reads_unlessAt_none item (reads_nextIs_true t after)
  | present d =>
    have hnext : Avoids [kind] (d.tokens ++ t.1 :: after) :=
      avoids_tokens d hnull fun k hk hm => hstart (List.mem_singleton.1 hm ▸ hk)
    have hstop : d.Stops (t.1 :: after) :=
      stops_terminal d t fun k hk => List.mem_singleton.1 hk ▸ htakes
    exact reads_unlessAt (reads_nextIs_false hnext) (h d hn he _ hstop)

theorem covers_loopStart (h : Phrase.expression.Covers e n) :
    Phrase.loopStart.Covers (loopStart e) n := by
  intro d hn he after hs
  unfold loopStart
  cases d with
  | startNothing t =>
    refine (reads_accept t (by decide) after).then ?_
    simp only [List.mem_singleton.1 t.2]
    exact reads_pure none after
  | startVariable d =>
    cases d with
    | varDeclaration k name d t =>
      have hd := reads_varDeclaration h name d hn he t after
      simp only [Derivation.tokens, List.cons_append, List.append_assoc]
      refine (reads_accept k (by decide) _).then ?_
      simp only [List.mem_singleton.1 k.2]
      exact hd.map
  | startExpression d =>
    have hstart : Avoids [.semicolon, .kwVar] (d.tokens ++ after) := avoids_tokens d rfl (by decide)
    exact (reads_accept_none hstart).then
      (covers_expressionStatement h d hn he after (stops_of_avoids d rfl hs.1)).map

theorem loop_eq (start : Option Stmt) (condition increment : Option Expr) (body : Stmt) :
    loop start condition increment body =
      Derivation.startedBy start (Derivation.loopOf condition increment body) := by
  cases start <;> cases increment <;> rfl

end Statements

/-! Blocks and declarations -/

section Blocks

variable {q : Phrase} {item : Parser (Option q.Tree)} {stop : Parser Bool}

/-- A loop over items up to where `stop` holds. It may hold behind the items only. -/
theorem collects_many (h : q.CoversSome item n)
    (hnull : q.nullable = false) (hstart : ∀ k ∈ q.starts, k ∉ .kwElse :: q.takes)
    (hgo : ∀ t ts, t.kind ∈ q.starts → Reads stop (t :: ts) false [] (t :: ts))
    (hstop : Reads stop after true [] after) (ha : Avoids (.kwElse :: q.takes) after) :
    (d : Derivation (.many q)) → d.nesting ≤ n → d.NearestElse →
      Avoids (.kwElse :: q.takes) (d.tokens ++ after) ∧
        Collects (unlessAt stop item) (d.tokens ++ after) (d.value.map some) d.diagnostics after
  | .nothing, _, _ => ⟨ha, .stop (reads_unlessAt_none item hstop)⟩
  | .next d rest, hn, he => by
    obtain ⟨hd, hr⟩ := Nat.max_le.1 hn
    obtain ⟨havoid, hrest⟩ := collects_many h hnull hstart hgo hstop ha rest hr he.2
    have hread := h d hd he.1 (rest.tokens ++ after)
      ⟨havoid.mono (List.subset_cons_self _ _), fun _ => havoid.mono (by simp)⟩
    obtain ⟨t, ts, ht, hk⟩ := d.exists_head hnull
    have htokens : (Derivation.next d rest).tokens ++ after = d.tokens ++ (rest.tokens ++ after) :=
      List.append_assoc ..
    rw [htokens]
    refine ⟨avoids_tokens d hnull hstart, .turn (reads_unlessAt ?_ hread) ?_ hrest⟩
    · rw [ht]; exact hgo t _ hk
    · simp only [ht, List.length_append, List.length_cons]; omega

theorem reads_braceOrEnd (t : Token) (ts : List Token) :
    Reads (do return (← nextIs .rightBrace) || (← atEnd)) (t :: ts) (t.kind = .rightBrace) []
      (t :: ts) := by
  have hvalue : (decide (t.kind = .rightBrace) || (t :: ts).isEmpty) = decide (t.kind = .rightBrace) := by
    simp
  rw [← hvalue]
  exact (reads_nextIs .rightBrace (t :: ts)).then (reads_atEnd (t :: ts)).last

theorem reads_untilBrace (h : q.CoversSome item n) (hnull : q.nullable = false)
    (hstart : ∀ k ∈ q.starts, k ∉ .rightBrace :: .kwElse :: q.takes)
    (hr : .rightBrace ∉ q.takes) (d : Derivation (.many q)) (hn : d.nesting ≤ n) (he : d.NearestElse)
    (r : Terminal [.rightBrace]) (after : List Token) :
    Reads (untilBrace item) (d.tokens ++ r.1 :: after) d.value d.diagnostics (r.1 :: after) := by
  have hbrace : r.1.kind = .rightBrace := List.mem_singleton.1 r.2
  have hcollect := (collects_many h hnull (fun k hk hm => hstart k hk (List.mem_cons_of_mem _ hm))
    (fun t ts ht => by
      have hne : t.kind ≠ .rightBrace := fun hk => hstart _ ht (hk ▸ List.mem_cons_self)
      simpa [hne] using reads_braceOrEnd t ts)
    (by simpa [hbrace] using reads_braceOrEnd r.1 after)
    (avoids_terminal r (by simpa using hr)) d hn he).2
  simpa [untilBrace] using hcollect.reads.last (g := fun items => items.filterMap id)

variable {declaration : Parser (Option Stmt)}

theorem reads_block (h : Phrase.declaration.CoversSome declaration n)
    (d : Derivation (.many .declaration)) (hn : d.nesting ≤ n) (he : d.NearestElse)
    (r : Terminal [.rightBrace]) (after : List Token) :
    Reads (block declaration) (d.tokens ++ r.1 :: after) d.value d.diagnostics after :=
  (reads_untilBrace h rfl (by decide) (by decide) d hn he r after).finish
    ((reads_expect r after).then (reads_pure d.value after))

theorem covers_name (problem : ParseProblem) : Phrase.name.Covers (expect .identifier problem) n := by
  intro d hn he after hs
  cases d with
  | name t => exact reads_expect t after

theorem covers_functionDeclaration (sort : FunctionSort)
    (h : Phrase.declaration.CoversSome declaration n) :
    Phrase.function.Covers (functionDeclaration sort declaration) n := by
  intro d hn he after hs
  cases d with
  | function name l params r body =>
    cases body with
    | block lb ds rb =>
      obtain ⟨hp, hb⟩ := Nat.max_le.1 hn
      have hparams := reads_listed (covers_name .parameterName) rfl rfl (by decide) (by decide)
        (by decide) .tooManyParameters "parameters" rfl params hp he.1 r
        (lb.1 :: (ds.tokens ++ rb.1 :: after))
      have hbody := reads_block h ds hb he.2 rb after
      simp only [Derivation.tokens, List.cons_append, List.append_assoc]
      exact (reads_expect name _).then ((reads_expect l _).then (hparams.bind
        ((reads_expect r _).then ((reads_expect lb _).then hbody.last))))

theorem reads_classDeclaration (h : Phrase.declaration.CoversSome declaration n)
    (name : Terminal [.identifier]) (l : Terminal [.leftBrace]) (d : Derivation (.many .function))
    (hn : d.nesting ≤ n) (he : d.NearestElse) (r : Terminal [.rightBrace]) (after : List Token) :
    Reads (classDeclaration declaration) (name.1 :: l.1 :: (d.tokens ++ r.1 :: after))
      (.class name.1 d.value) d.diagnostics after := by
  have hmethods : Phrase.function.CoversSome (some <$> functionDeclaration .method declaration) n :=
    fun d hn he after hs => (covers_functionDeclaration .method h d hn he after hs).map
  have hd := reads_untilBrace hmethods rfl (by decide) (by decide) d hn he r after
  exact (reads_expect name _).then ((reads_expect l _).then
    (hd.finish ((reads_expect r after).then (reads_pure _ after))))

end Blocks

/-! The recursion -/

/-- What the parsers of all sorts of phrase read at one depth. -/
structure CoversAll (n : Nat) : Prop where
  expression : Phrase.expression.Covers (expression n) n
  unary : Phrase.unary.Covers (unary n) n
  statement : Phrase.statement.Covers (statement n) n
  declaration : Phrase.declaration.CoversSome (declaration n) n

theorem covers_statement_succ (h : CoversAll n) : Phrase.statement.Covers (statement (n + 1)) (n + 1) := by
  intro d hn he after hs
  unfold statement
  cases d with
  | expression d =>
    have hstart : Avoids [.kwFor, .kwIf, .kwPrint, .kwReturn, .kwWhile, .leftBrace] (d.tokens ++ after) :=
      avoids_tokens d rfl (by decide)
    exact (reads_accept_none hstart).then (covers_expressionStatement h.expression d
      (Nat.le_of_succ_le_succ hn) he after (stops_of_avoids d rfl hs.1))
  | print k d t =>
    have hd := h.expression d (Nat.le_of_succ_le_succ hn) he (t.1 :: after) (stops_terminal d t (by decide))
    simp only [Derivation.tokens, List.cons_append, List.append_assoc]
    refine (reads_accept k (by decide) _).then ?_
    simp only [List.mem_singleton.1 k.2]
    exact hd.finish ((reads_expect t after).then (reads_pure _ after))
  | returning k d t =>
    have hd := reads_unlessNext h.expression rfl (by decide) (by decide) d (Nat.le_of_succ_le_succ hn) he
      t after
    simp only [Derivation.tokens, List.cons_append, List.append_assoc]
    refine (reads_accept k (by decide) _).then ?_
    simp only [List.mem_singleton.1 k.2]
    exact hd.finish ((reads_expect t after).then (reads_pure _ after))
  | nested d =>
    cases d with
    | block l ds r =>
      have hd := reads_block h.declaration ds (Nat.le_of_succ_le_succ hn) he r after
      simp only [Derivation.tokens, List.cons_append, List.append_assoc]
      refine (reads_accept l (by decide) _).then ?_
      simp only [List.mem_singleton.1 l.2]
      exact hd.last
  | whileLoop k l c r b =>
    obtain ⟨hc, hb⟩ := Nat.max_le.1 (Nat.le_of_succ_le_succ hn)
    have hc := h.expression c hc he.1 (r.1 :: (b.tokens ++ after)) (stops_terminal c r (by decide))
    have hb := h.statement b hb he.2 after hs
    simp only [Derivation.tokens, List.cons_append, List.append_assoc]
    refine (reads_accept k (by decide) _).then ?_
    simp only [List.mem_singleton.1 k.2]
    exact (reads_expect l _).then (hc.bind ((reads_expect r _).then hb.last))
  | branch k l c r t f =>
    obtain ⟨hc, htf⟩ := Nat.max_le.1 (Nat.le_of_succ_le_succ hn)
    obtain ⟨ht, hf⟩ := Nat.max_le.1 htf
    cases f with
    | absent =>
      have hc := h.expression c hc he.1 (r.1 :: (t.tokens ++ after)) (stops_terminal c r (by decide))
      have hstop : Avoids [.kwElse] after := hs.2 trivial
      have ht := h.statement t ht he.2 after ⟨hs.1, fun _ => hstop⟩
      simp only [Derivation.tokens, List.cons_append, List.append_assoc, List.append_nil]
      refine (reads_accept k (by decide) _).then ?_
      simp only [List.mem_singleton.1 k.2, Derivation.diagnostics, List.append_nil]
      exact (reads_expect l _).then (hc.bind ((reads_expect r _).then
        (ht.finish (reads_behind_none _ hstop).last)))
    | present f =>
      cases f with
      | alternative el f =>
        have hc := h.expression c hc he.1 (r.1 :: (t.tokens ++ el.1 :: (f.tokens ++ after)))
          (stops_terminal c r (by decide))
        have ht := h.statement t ht he.2.1 (el.1 :: (f.tokens ++ after))
          ⟨fun _ _ => List.not_mem_nil, fun ho => absurd ho he.2.2.1⟩
        have hf := h.statement f hf he.2.2.2 after hs
        simp only [Derivation.tokens, List.cons_append, List.append_assoc]
        refine (reads_accept k (by decide) _).then ?_
        simp only [List.mem_singleton.1 k.2, Derivation.diagnostics, List.append_assoc]
        exact (reads_expect l _).then (hc.bind ((reads_expect r _).then
          (ht.bind (reads_behind el hf).last)))
  | forLoop k l s c t i r b =>
    obtain ⟨hst, hcib⟩ := Nat.max_le.1 (Nat.le_of_succ_le_succ hn)
    obtain ⟨hc, hib⟩ := Nat.max_le.1 hcib
    obtain ⟨hi, hb⟩ := Nat.max_le.1 hib
    obtain ⟨hes, hec, hei, heb⟩ := he
    have hst := covers_loopStart h.expression s hst hes
      (c.tokens ++ t.1 :: (i.tokens ++ r.1 :: (b.tokens ++ after)))
      (stops_of_avoids s rfl fun _ _ => List.not_mem_nil)
    have hc := reads_unlessNext h.expression rfl (by decide) (by decide) c hc hec t
      (i.tokens ++ r.1 :: (b.tokens ++ after))
    have hi := reads_unlessNext h.expression rfl (by decide) (by decide) i hi hei r (b.tokens ++ after)
    have hb := h.statement b hb heb after hs
    simp only [Derivation.tokens, List.cons_append, List.append_assoc]
    refine (reads_accept k (by decide) _).then ?_
    simp only [List.mem_singleton.1 k.2, Derivation.diagnostics, List.append_assoc, Derivation.value,
      ← loop_eq]
    exact (reads_expect l _).then (hst.bind (hc.bind ((reads_expect t _).then
      (hi.bind ((reads_expect r _).then hb.last)))))

theorem coversSome_declaration_succ (h : CoversAll n) :
    Phrase.declaration.CoversSome (declaration (n + 1)) (n + 1) := by
  intro d hn he after hs
  unfold declaration
  apply Reads.recovering
  cases d with
  | statement d =>
    have hstart : Avoids [.kwClass, .kwFun, .kwVar] (d.tokens ++ after) := avoids_tokens d rfl (by decide)
    exact (reads_accept_none hstart).then (h.statement d (Nat.le_of_succ_le_succ hn) he after hs)
  | «variable» d =>
    cases d with
    | varDeclaration k name d t =>
      have hd := reads_varDeclaration h.expression name d (Nat.le_of_succ_le_succ hn) he t after
      simp only [Derivation.tokens, List.cons_append, List.append_assoc]
      refine (reads_accept k (by decide) _).then ?_
      simp only [List.mem_singleton.1 k.2]
      exact hd
  | funDeclaration k d =>
    have hd := covers_functionDeclaration .function h.declaration d (Nat.le_of_succ_le_succ hn) he after
      (stops_of_avoids d rfl hs.1)
    simp only [Derivation.tokens, List.cons_append]
    refine (reads_accept k (by decide) _).then ?_
    simp only [List.mem_singleton.1 k.2]
    exact hd
  | classDeclaration k name l d r =>
    have hd := reads_classDeclaration h.declaration name l d (Nat.le_of_succ_le_succ hn) he r after
    simp only [Derivation.tokens, List.cons_append, List.append_assoc]
    refine (reads_accept k (by decide) _).then ?_
    simp only [List.mem_singleton.1 k.2]
    exact hd

theorem coversAll : ∀ n, CoversAll n
  | 0 =>
    { expression := fun d hn => by cases d <;> simp [Derivation.nesting] at hn
      unary := fun d hn => by cases d <;> simp [Derivation.nesting] at hn
      statement := fun d hn => by cases d <;> simp [Derivation.nesting] at hn
      declaration := fun d hn => by cases d <;> simp [Derivation.nesting] at hn }
  | n + 1 =>
    have h := coversAll n
    { expression := covers_expression_succ h.expression h.unary
      unary := covers_unary_succ h.expression h.unary
      statement := covers_statement_succ h
      declaration := coversSome_declaration_succ h }

theorem reads_program (d : Derivation (.many .declaration)) (hn : d.nesting ≤ n) (he : d.NearestElse) :
    Reads (program n) d.tokens d.value d.diagnostics [] := by
  have hlimited : Phrase.declaration.CoversSome (limiting (declaration n)) n :=
    fun d hn he after hs => ((coversAll n).declaration d hn he after hs).limiting
  have hcollect := (collects_many hlimited rfl (by decide) (fun t ts _ => reads_atEnd (t :: ts))
    (reads_atEnd []) (fun _ h => nomatch h) d hn he).2
  simpa [program] using hcollect.reads.last (g := fun items => items.filterMap id)

end Parser

/-- A sentence is read as its derivation says, if the `else`s of the derivation are where they belong. -/
theorem Program.ofTokens_derivation (d : Derivation (.many .declaration)) {depth : Nat}
    (hn : d.nesting ≤ depth) (he : d.NearestElse) :
    (Program.ofTokens depth d.tokens).statements = d.value ∧
      ∀ line, (Program.ofTokens depth d.tokens).errors.map (·.diagnostic line) = d.diagnostics := by
  obtain ⟨es, hp, hes⟩ := Parser.reads_program d hn he #[]
  unfold Program.ofTokens
  rw [hp]
  exact ⟨rfl, fun line => by simpa using hes line⟩

end Lox
