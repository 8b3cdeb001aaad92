import Lox.Proofs.Grammar.Persists

/-! Where parsers break off. The first problem that is not passed over stands where the tokens stop being the beginning
of a phrase, and not before: what was used up until then could still go on to be a whole one. `Breaks p ts E` says
that `E` holds of the place of that problem, and there is one law for each parser, as there is for what it accepts. -/

namespace Lox

/-- The first problem that is not passed over. -/
def firstSevere? (es : Array ParseError) : Option ParseError := es.find? (!·.problem.isMild)

variable {es es' : Array ParseError} {e : ParseError}

theorem firstSevere?_eq_none : firstSevere? es = none ↔ Mild es := by
  simp [firstSevere?, Mild]

theorem firstSevere?_append_of_mild (h : Mild es) : firstSevere? (es ++ es') = firstSevere? es' := by
  unfold firstSevere? at *
  rw [Array.find?_append, show es.find? (!·.problem.isMild) = none from firstSevere?_eq_none.2 h, Option.none_or]

theorem firstSevere?_append_of_not_mild (h : ¬ Mild es) : firstSevere? (es ++ es') = firstSevere? es := by
  rw [← firstSevere?_eq_none, ← ne_eq, Option.ne_none_iff_exists'] at h
  obtain ⟨e, he⟩ := h
  unfold firstSevere? at *
  rw [Array.find?_append, he, Option.some_or]

theorem firstSevere?_of_append (h : ∀ e ∈ es', e.problem = .nesting) (he : firstSevere? (es ++ es') = some e)
    (hne : e.problem ≠ .nesting) : firstSevere? es = some e := by
  by_cases hmild : Mild es
  · rw [firstSevere?_append_of_mild hmild] at he
    exact absurd (h e (Array.mem_of_find?_eq_some he)) hne
  · rwa [firstSevere?_append_of_not_mild hmild] at he

namespace Parser

variable {α β : Type} {p : Parser α} {f : α → Parser β} {ts : List Token} {P : α → List Token → Prop}
  {E E' : List Token → Prop}

/-- Whether a run only adds to what has been reported, and the first thing it adds that is not passed over stands at a
place of which `E` holds. Where the limit of the nesting was met says nothing. -/
def Breaks (p : Parser α) (ts : List Token) (E : List Token → Prop) : Prop :=
  ∀ errors, ∃ es, (ending (p ⟨ts, errors⟩)).errors = errors ++ es ∧
    ∀ e, firstSevere? es = some e → e.problem ≠ .nesting → E e.place

theorem Breaks.mono (h : Breaks p ts E) (hE : ∀ place, E place → E' place) : Breaks p ts E' := by
  intro errors
  obtain ⟨es, hes, hplace⟩ := h errors
  exact ⟨es, hes, fun e he hne => hE _ (hplace e he hne)⟩

theorem Breaks.bind (hp : Parses p ts P) (hb : Breaks p ts E)
    (hf : ∀ a ts', Breaks (f a) ts' fun place => P a ts' → E place) : Breaks (p >>= f) ts E := by
  intro errors
  obtain ⟨es, hes, hplace⟩ := hb errors
  have hparses := hp errors
  cases hr : p ⟨ts, errors⟩ with
  | error halt c =>
    rw [hr] at hes
    exact ⟨es, by rw [bind_of_error hr]; exact hes, hplace⟩
  | ok a c =>
    rw [hr] at hes hparses
    obtain ⟨es₁, hes₁, hmild⟩ := hparses
    obtain rfl : es₁ = es := (Array.append_right_inj errors).1 (hes₁.symm.trans hes)
    obtain ⟨es', hes', hplace'⟩ := hf a c.rest c.errors
    refine ⟨es₁ ++ es', ?_, fun e he hne => ?_⟩
    · rw [bind_of_ok hr, hes', hes₁, Array.append_assoc]
    · by_cases h : Mild es₁
      · rw [firstSevere?_append_of_mild h] at he
        exact hplace' e he hne (hmild h)
      · rw [firstSevere?_append_of_not_mild h] at he
        exact hplace e he hne

theorem Breaks.map {g : α → β} (h : Breaks p ts E) : Breaks (g <$> p) ts E := by
  intro errors
  obtain ⟨es, hes, hplace⟩ := h errors
  refine ⟨es, ?_, hplace⟩
  rw [← hes]
  show (ending (EStateM.map g p _)).errors = _
  unfold EStateM.map
  cases p ⟨ts, errors⟩ <;> rfl

/-- A run that reports nothing. -/
theorem breaks_silent (h : ∀ errors, (ending (p ⟨ts, errors⟩)).errors = errors) : Breaks p ts E := fun errors =>
  ⟨#[], (h errors).trans Array.append_empty.symm, nofun⟩

theorem breaks_pure (a : α) : Breaks (pure a) ts E := breaks_silent fun _ => rfl

theorem breaks_tooDeep : Breaks (throw .tooDeep : Parser α) ts E := breaks_silent fun _ => rfl

theorem breaks_place : Breaks place ts E := breaks_silent fun _ => rfl

theorem breaks_nextIs (kind : TokenKind) : Breaks (nextIs kind) ts E := breaks_silent fun _ => rfl

theorem breaks_atEnd : Breaks atEnd ts E := breaks_silent fun _ => rfl

theorem breaks_report (place : List Token) {problem : ParseProblem} (h : problem.isMild) :
    Breaks (report place problem) ts E := fun errors =>
  ⟨#[⟨place, problem⟩], Array.push_eq_append, fun e he => by simp [firstSevere?, h] at he⟩

theorem breaks_fail (problem : ParseProblem) (h : E ts) : Breaks (fail problem : Parser α) ts E := by
  refine fun errors => ⟨#[⟨ts, problem⟩], Array.push_eq_append, fun e he _ => ?_⟩
  obtain rfl := Array.mem_singleton.1 (Array.mem_of_find?_eq_some he)
  exact h

/-- A step behind which only its result is put together. -/
theorem Breaks.last {g : α → β} (h : Breaks p ts E) : Breaks (p >>= fun a => pure (g a)) ts E := by
  rw [← map_eq_pure_bind]
  exact h.map

theorem breaks_accept {kinds : List TokenKind} {f : Option Token → Parser β}
    (hnone : Avoids kinds ts → Breaks (f none) ts E)
    (hsome : ∀ (t : Terminal kinds) ts', ts = t.1 :: ts' → Breaks (f (some t.1)) ts' E) :
    Breaks (accept kinds >>= f) ts E := by
  intro errors
  show ∃ es, (ending (EStateM.bind (accept kinds) f _)).errors = _ ∧ _
  unfold EStateM.bind accept
  cases ts with
  | nil => exact hnone nofun errors
  | cons t ts =>
    by_cases ht : t.kind ∈ kinds
    · simp only [if_pos ht]
      exact hsome ⟨t, ht⟩ ts rfl errors
    · simp only [if_neg ht]
      exact hnone (avoids_cons.2 ht) errors

/-- A token that has to be there. -/
theorem breaks_expect {kind : TokenKind} {problem : ParseProblem} {f : Token → Parser β} (hE : E ts)
    (hf : ∀ (t : Terminal [kind]) ts', ts = t.1 :: ts' → Breaks (f t.1) ts' E) :
    Breaks (expect kind problem >>= f) ts E := by
  unfold expect
  rw [bind_assoc]
  refine breaks_accept (fun _ => ?_) fun t ts' ht => ?_
  · exact breaks_fail problem hE
  · rw [pure_bind]
    exact hf t ts' ht

theorem errors_recovering (p : Parser α) (c : Cursor) : (ending (recovering p c)).errors = (ending (p c)).errors := by
  unfold recovering
  rcases p c with _ | ⟨_ | _, _⟩ <;> rfl

theorem Breaks.recovering (h : Breaks p ts E) : Breaks (recovering p) ts E := by
  intro errors
  rw [errors_recovering]
  exact h errors

/-- Only where the limit was met is anything added. -/
theorem exists_errors_limiting (p : Parser (Option α)) (c : Cursor) :
    ∃ es, (ending (limiting p c)).errors = (ending (p c)).errors ++ es ∧ ∀ e ∈ es, e.problem = .nesting := by
  unfold limiting
  rcases p c with _ | ⟨_ | _, d⟩
  · exact ⟨#[], Array.append_empty.symm, nofun⟩
  · exact ⟨#[], Array.append_empty.symm, nofun⟩
  · exact ⟨#[⟨d.rest, .nesting⟩], Array.push_eq_append, fun e he => Array.mem_singleton.1 he ▸ rfl⟩

theorem Breaks.limiting {p : Parser (Option α)} (h : Breaks p ts E) : Breaks (limiting p) ts E := by
  intro errors
  obtain ⟨es, hes, hplace⟩ := h errors
  obtain ⟨es', hes', hnesting⟩ := exists_errors_limiting p ⟨ts, errors⟩
  refine ⟨es ++ es', by rw [hes', hes, Array.append_assoc], fun e he hne => hplace e ?_ hne⟩
  exact firstSevere?_of_append hnesting he hne

end Parser

/-! Beginnings of phrases. What is open can always be closed, with the shortest phrases there are. -/

instance (kind : TokenKind) : Inhabited (Terminal [kind]) := ⟨⟨kind, "", .nil, 0⟩, List.mem_singleton_self kind⟩

namespace Derivation

instance : Inhabited (Derivation .unary) := ⟨.bare (.operand (.this default))⟩

def shortestLevel : (levels : List (List TokenKind)) → Derivation (.level levels)
  | [] => .tightest default
  | _ :: rest => .single (shortestLevel rest)

instance (levels : List (List TokenKind)) : Inhabited (Derivation (.level levels)) := ⟨shortestLevel levels⟩

instance : Inhabited (Derivation .expression) := ⟨.plain default⟩

instance (q : Phrase) : Inhabited (Derivation (.optional q)) := ⟨.absent⟩

instance (q : Phrase) : Inhabited (Derivation (.many q)) := ⟨.nothing⟩

instance : Inhabited (Derivation .block) := ⟨.block default default default⟩

instance : Inhabited (Derivation .statement) := ⟨.nested default⟩

end Derivation

namespace Phrase

variable {α : Type} {q q' : Phrase} {n : Nat} {ts ts' us place : List Token}

/-- Whether the tokens from `ts` up to `place` can go on to be those of a phrase. -/
def Begins (q : Phrase) (ts place : List Token) : Prop :=
  ∃ us, ts = us ++ place ∧ ∃ d : Derivation q, us <+: d.tokens

/-- Whether a parser uses up derivations of a phrase only, and breaks off only behind a beginning of one. -/
structure Predicts (q : Phrase) (p : Parser α) (n : Nat) : Prop where
  accepts : q.Accepts p n
  breaks : ∀ ts, p.Breaks ts (q.Begins ts)

theorem begins_of (us : List Token) (d : Derivation q) (h : us <+: d.tokens) : q.Begins (us ++ ts) ts :=
  ⟨us, rfl, d, h⟩

/-- A phrase in a larger one, with the tokens `us` before it. -/
theorem Begins.within (h : q.Begins ts place) (us : List Token) (g : Derivation q → Derivation q')
    (hg : ∀ d, us ++ d.tokens <+: (g d).tokens) : q'.Begins (us ++ ts) place := by
  obtain ⟨vs, rfl, d, hd⟩ := h
  exact ⟨us ++ vs, (List.append_assoc ..).symm, g d, ((List.prefix_append_right_inj us).2 hd).trans (hg d)⟩

/-- A list whose last entry breaks off. -/
theorem begins_list {t : Terminal [.comma]} (hfirst : q.Spans n ts ts')
    (hrest : Relation.ReflTransGen (q.SpansBehind n [.comma]) ts' (t.1 :: us)) (h : q.Begins us place) :
    (list q).Begins ts place := by
  induction hrest using Relation.ReflTransGen.head_induction_on generalizing ts with
  | refl =>
    obtain ⟨d, rfl, -⟩ := hfirst
    simpa using h.within (d.tokens ++ [t.1]) (fun e => .more d t (.last e)) (by simp [Derivation.tokens])
  | head hitem _ ih =>
    obtain ⟨c, vs, rfl, hspan⟩ := hitem
    obtain ⟨d, rfl, -⟩ := hfirst
    simpa using (ih hspan).within (d.tokens ++ [c.1]) (.more d c) (by simp [Derivation.tokens])

theorem begins_many (hrest : Relation.ReflTransGen (q.Spans n) ts ts') (h : q.Begins ts' place) :
    (many q).Begins ts place := by
  induction hrest using Relation.ReflTransGen.head_induction_on with
  | refl => exact h.within [] (.next · .nothing) (by simp [Derivation.tokens])
  | head hitem _ ih =>
    obtain ⟨d, rfl, -⟩ := hitem
    exact ih.within d.tokens (.next d) (by simp [Derivation.tokens])

end Phrase

namespace Parser

open Phrase

variable {α β : Type} {q : Phrase} {n : Nat} {ts : List Token} {E : List Token → Prop}

/-- A phrase and what stands behind it. -/
theorem breaks_phrase {p : Parser α} {f : α → Parser β} (hp : q.Predicts p n)
    (hE : ∀ place, q.Begins ts place → E place)
    (hf : ∀ a ts', Breaks (f a) ts' fun place => ∀ d : Derivation q, ts = d.tokens ++ ts' → E place) :
    Breaks (p >>= f) ts E :=
  Breaks.bind (hp.accepts ts) ((hp.breaks ts).mono hE) fun a ts' =>
    (hf a ts').mono fun _ h ⟨d, hd, _⟩ => h d hd

/-! Lists -/

section Lists

variable {item : Parser α}

theorem breaks_behind {kinds : List TokenKind} (hp : q.Predicts item n)
    (hE : ∀ (t : Terminal kinds) us place, ts = t.1 :: us → q.Begins us place → E place) :
    Breaks (behind kinds item) ts E :=
  breaks_accept (fun _ => breaks_pure none) fun t us ht => ((hp.breaks us).mono fun place => hE t us place ht).last

theorem breaks_unlessAt {stop : Parser Bool} (hs : Parses stop ts fun _ after => after = ts) (hb : Breaks stop ts E)
    (hp : q.Predicts item n) (hE : ∀ place, q.Begins ts place → E place) : Breaks (unlessAt stop item) ts E := by
  refine Breaks.bind hs hb fun b ts' => ?_
  cases b with
  | true => exact breaks_pure none
  | false =>
    refine ((hp.breaks ts').mono fun place h hts => hE place ?_).map
    rwa [← hts]

theorem predicts_unlessNext (kind : TokenKind) (hp : q.Predicts item n) :
    (Phrase.optional q).Predicts (unlessAt (nextIs kind) item) n where
  accepts _ := (parses_unlessNext kind hp.accepts).mono fun _ _ h => spans_optional h
  breaks _ := breaks_unlessAt (parses_nextIs kind) (breaks_nextIs kind) hp fun _ h =>
    h.within [] .present fun _ => List.prefix_rfl

/-- A loop breaks off in one of its turns. -/
theorem breaks_collect {step : Parser (Option α)} {S : List Token → List Token → Prop} {T : List Token → Prop}
    (hp : ∀ ts, Parses step ts (Perhaps S T ts))
    (hb : ∀ ts', Breaks step ts' fun place => Relation.ReflTransGen S ts ts' → E place) :
    Breaks (collect step) ts E := by
  have hwithin (left : List Token) : ∀ (ts : List Token) (E : List Token → Prop),
      (∀ ts', Breaks step ts' fun place => Relation.ReflTransGen S ts ts' → E place) →
        Breaks (collectWithin step left) ts E := by
    induction left with
    | nil => exact fun ts E _ => breaks_pure []
    | cons _ left ih =>
      refine fun ts E hb => Breaks.bind (hp ts) ((hb ts).mono fun _ h => h .refl) fun o ts' => ?_
      cases o with
      | none => exact breaks_pure []
      | some a => exact (ih ts' _ fun ts'' => (hb ts'').mono fun _ h hrest hfirst => h (.head hfirst hrest)).last
  refine Breaks.bind (hp ts) ((hb ts).mono fun _ h => h .refl) fun o ts' => ?_
  cases o with
  | none => exact breaks_pure []
  | some a =>
    refine Breaks.bind parses_place breaks_place fun left ts₁ => ((hwithin left ts₁ _ fun ts'' => ?_).last)
    refine (hb ts'').mono fun _ h hrest hplace hfirst => h (.head hfirst ?_)
    rwa [← hplace.2]

theorem predicts_commaSeparated (hp : q.Predicts item n) : (Phrase.list q).Predicts (commaSeparated item) n where
  accepts := accepts_commaSeparated hp.accepts
  breaks ts := by
    refine Breaks.bind (hp.accepts ts) ((hp.breaks ts).mono fun _ h => h.within [] .last fun _ => List.prefix_rfl)
      fun _ ts₁ => (breaks_collect (parses_step_behind [.comma] hp.accepts) fun ts' => ?_).last
    refine breaks_behind hp fun t us place ht h hrest hfirst => ?_
    subst ht
    exact begins_list hfirst hrest h

theorem breaks_checkLength (items : List α) {problem : ParseProblem} (h : problem.isMild) :
    Breaks (checkLength items problem) ts E := by
  unfold checkLength
  split
  · exact Breaks.bind parses_place breaks_place fun place _ => breaks_report place h
  · exact breaks_pure ()

theorem predicts_listed (hp : q.Predicts item n) {problem : ParseProblem} (h : problem.isMild) :
    (Phrase.optional (.list q)).Predicts (listed item problem) n where
  accepts := accepts_listed hp.accepts problem
  breaks _ :=
    breaks_phrase (predicts_unlessNext .rightParen (predicts_commaSeparated hp)) (fun _ h => h) fun _ _ =>
      (breaks_checkLength _ h).last

theorem predicts_leftAssoc {ops : List TokenKind} {rest : List (List TokenKind)} {operand : Parser Expr}
    (hp : (Phrase.level rest).Predicts operand n) :
    (Phrase.level (ops :: rest)).Predicts (leftAssoc ops operand) n where
  accepts := accepts_leftAssoc hp.accepts
  breaks ts := by
    refine Breaks.bind (hp.accepts ts) ((hp.breaks ts).mono fun _ h => h.within [] .single fun _ => List.prefix_rfl)
      fun _ ts₁ => (breaks_collect (parses_step_behind ops hp.accepts) fun ts' => ?_).last
    refine breaks_behind hp fun t us place ht h hrest hfirst => ?_
    obtain ⟨d, rfl, -⟩ := spans_level hfirst hrest
    subst ht
    simpa using h.within (d.tokens ++ [t.1]) (.operation d t) (by simp [Derivation.tokens])

theorem predicts_levels {operand : Parser Expr} (hp : Phrase.unary.Predicts operand n) :
    ∀ levels : List (List TokenKind), (Phrase.level levels).Predicts (levels.foldr leftAssoc operand) n
  | [] => ⟨accepts_levels hp.accepts [], fun ts =>
      (hp.breaks ts).mono fun _ h => h.within [] .tightest fun _ => List.prefix_rfl⟩
  | _ :: rest => predicts_leftAssoc (predicts_levels hp rest)

end Lists

/-! Expressions -/

section Expressions

variable {e : Parser Expr} (he : Phrase.expression.Predicts e n)

include he

theorem breaks_grouping (ts : List Token) :
    Breaks (grouping e) ts fun place => ∀ l : Terminal [.leftParen], Phrase.primary.Begins (l.1 :: ts) place := by
  refine breaks_phrase he (fun place h l => ?_) fun _ _ => breaks_expect (fun d hd l => ?_) fun _ _ _ => breaks_pure _
  · exact h.within [l.1] (.grouping l · default) (by simp [Derivation.tokens])
  · subst hd
    exact begins_of (l.1 :: d.tokens) (.grouping l d default) (by simp [Derivation.tokens])

theorem predicts_primary : Phrase.primary.Predicts (primary e) n where
  accepts := accepts_primary he.accepts
  breaks ts := by
    refine breaks_accept (fun _ => breaks_fail .expression ?_) fun t ts₁ ht => ?_
    · exact begins_of [] (.this default) List.nil_prefix
    · subst ht
      dsimp only
      split
      case h_6 hk => exact (breaks_grouping he ts₁).mono fun _ h => h ⟨t.1, by simp [hk]⟩
      all_goals exact breaks_pure _

theorem breaks_suffix (ts : List Token) :
    Breaks (suffix e) ts fun place => ∀ d : Derivation .call, Phrase.call.Begins (d.tokens ++ ts) place := by
  refine breaks_accept (fun _ => breaks_accept (fun _ => breaks_pure none) fun dot ts₁ hdot => ?_) fun l ts₁ hl => ?_
  · subst hdot
    refine breaks_expect (fun d => ?_) fun _ _ _ => breaks_pure _
    simpa using begins_of (d.tokens ++ [dot.1]) (.property d dot default) (by simp [Derivation.tokens])
  · subst hl
    refine breaks_phrase (predicts_listed he rfl) (fun place h d => ?_) fun _ ts₂ =>
      breaks_expect (fun ds hds d => ?_) fun _ _ _ => breaks_pure _
    · simpa using h.within (d.tokens ++ [l.1]) (.application d l · default) (by simp [Derivation.tokens])
    · subst hds
      simpa using begins_of (d.tokens ++ l.1 :: ds.tokens) (.application d l ds default) (by simp [Derivation.tokens])

theorem predicts_suffixed : Phrase.call.Predicts (suffixed e) n where
  accepts := accepts_suffixed he.accepts
  breaks ts := by
    have hp := predicts_primary he
    refine Breaks.bind (hp.accepts ts) ((hp.breaks ts).mono fun _ h => h.within [] .operand fun _ => List.prefix_rfl)
      fun _ ts₁ => (breaks_collect (parses_suffix he.accepts) fun ts' => ?_).last
    refine (breaks_suffix he ts').mono fun place h hrest hfirst => ?_
    obtain ⟨d, rfl, -⟩ := spans_call hfirst hrest
    exact h d

end Expressions

theorem predicts_expressions : ∀ n, Phrase.expression.Predicts (expression n) n ∧ Phrase.unary.Predicts (unary n) n
  | 0 => ⟨⟨(acceptsAll 0).expression, fun _ => breaks_tooDeep⟩, ⟨(acceptsAll 0).unary, fun _ => breaks_tooDeep⟩⟩
  | n + 1 => by
    obtain ⟨he, hu⟩ := predicts_expressions n
    refine ⟨⟨(acceptsAll (n + 1)).expression, fun ts => ?_⟩, ⟨(acceptsAll (n + 1)).unary, fun ts => ?_⟩⟩
    · unfold expression
      refine breaks_phrase (predicts_levels hu operatorLevels) (fun _ h => h.within [] .plain fun _ => List.prefix_rfl)
        fun target ts₁ => Breaks.bind parses_place breaks_place fun equals ts₂ =>
          breaks_accept (fun _ => breaks_pure target) fun t ts₃ ht => ?_
      refine Breaks.bind (he.accepts ts₃) ((he.breaks ts₃).mono fun place h hplace d hd => ?_) fun value ts₄ => ?_
      · obtain ⟨-, rfl⟩ := hplace
        subst ht hd
        simpa using h.within (d.tokens ++ [t.1]) (.assignment d t) (by simp [Derivation.tokens])
      · split
        · exact breaks_pure _
        · exact (breaks_report equals rfl).last
    · unfold unary
      refine breaks_accept (fun _ => ?_) fun t ts₁ ht => ?_
      · exact ((predicts_suffixed he).breaks ts).mono fun _ h => h.within [] .bare fun _ => List.prefix_rfl
      · subst ht
        exact ((hu.breaks ts₁).mono fun _ h => h.within [t.1] (.sign t) fun _ => List.prefix_rfl).last

/-! Statements -/

section Statements

variable {e : Parser Expr} {s : Parser Stmt} (he : Phrase.expression.Predicts e n)
  (hs : Phrase.statement.Predicts s n)

include he

theorem predicts_expressionStatement : Phrase.exprStatement.Predicts (expressionStatement e) n where
  accepts := accepts_expressionStatement he.accepts
  breaks ts := by
    refine breaks_phrase he (fun place h => ?_) fun _ _ => breaks_expect (fun c hc => ?_) fun _ _ _ => breaks_pure _
    · exact h.within [] (.exprStatement · default) fun _ => List.prefix_append _ _
    · subst hc
      exact begins_of c.tokens (.exprStatement c default) (List.prefix_append _ _)

theorem breaks_varDeclaration (ts : List Token) :
    Breaks (varDeclaration e) ts fun place =>
      ∀ k : Terminal [.kwVar], Phrase.varDeclaration.Begins (k.1 :: ts) place := by
  refine breaks_expect (fun k => ?_) fun name ts₁ hname => Breaks.bind (parses_behind [.equal] he.accepts)
    (breaks_behind he fun t ts₂ place ht h k => ?_) fun o ts₂ =>
      breaks_expect (fun ho k => ?_) fun _ _ _ => breaks_pure _
  · exact begins_of [k.1] (.varDeclaration k default default default) (by simp [Derivation.tokens])
  · subst hname ht
    exact h.within [k.1, name.1, t.1] (fun d => .varDeclaration k name (.present (.initializer t d)) default)
      (by simp [Derivation.tokens])
  · subst hname
    obtain ⟨d, rfl, -⟩ := spans_initializer ho
    exact begins_of (k.1 :: name.1 :: d.tokens) (.varDeclaration k name d default) (by simp [Derivation.tokens])

theorem breaks_printStatement (ts : List Token) :
    Breaks (printStatement e) ts fun place => ∀ k : Terminal [.kwPrint], Phrase.statement.Begins (k.1 :: ts) place := by
  refine breaks_phrase he (fun place h k => ?_) fun _ _ => breaks_expect (fun c hc k => ?_) fun _ _ _ => breaks_pure _
  · exact h.within [k.1] (.print k · default) (by simp [Derivation.tokens])
  · subst hc
    exact begins_of (k.1 :: c.tokens) (.print k c default) (by simp [Derivation.tokens])

theorem breaks_returnStatement (keyword : Token) (ts : List Token) :
    Breaks (returnStatement keyword e) ts fun place =>
      ∀ k : Terminal [.kwReturn], Phrase.statement.Begins (k.1 :: ts) place := by
  refine breaks_phrase (predicts_unlessNext .semicolon he) (fun place h k => ?_) fun _ _ =>
    breaks_expect (fun c hc k => ?_) fun _ _ _ => breaks_pure _
  · exact h.within [k.1] (.returning k · default) (by simp [Derivation.tokens])
  · subst hc
    exact begins_of (k.1 :: c.tokens) (.returning k c default) (by simp [Derivation.tokens])

theorem predicts_loopStart : Phrase.loopStart.Predicts (loopStart e) n where
  accepts := accepts_loopStart he.accepts
  breaks ts := by
    refine breaks_accept (fun _ => ?_) fun t ts₁ ht => ?_
    · exact Breaks.map (((predicts_expressionStatement he).breaks ts).mono fun _ h =>
        h.within [] .startExpression fun _ => List.prefix_rfl)
    · subst ht
      dsimp only
      split
      · next hk =>
        exact Breaks.map ((breaks_varDeclaration he ts₁).mono fun _ h =>
          (h ⟨t.1, by simp [hk]⟩).within [] .startVariable fun _ => List.prefix_rfl)
      · exact breaks_pure none

include hs

theorem breaks_whileStatement (ts : List Token) :
    Breaks (whileStatement e s) ts fun place =>
      ∀ k : Terminal [.kwWhile], Phrase.statement.Begins (k.1 :: ts) place := by
  refine breaks_expect (fun k => ?_) fun l ts₁ hl => breaks_phrase he (fun place h k => ?_) fun _ ts₂ =>
    breaks_expect (fun c hc k => ?_) fun r ts₃ hr => ((hs.breaks ts₃).mono fun place h c hc k => ?_).last
  · exact begins_of [k.1] (.whileLoop k default default default default) (by simp [Derivation.tokens])
  · subst hl
    exact h.within [k.1, l.1] (.whileLoop k l · default default) (by simp [Derivation.tokens])
  · subst hl hc
    exact begins_of (k.1 :: l.1 :: c.tokens) (.whileLoop k l c default default) (by simp [Derivation.tokens])
  · subst hl hr hc
    simpa using h.within (k.1 :: l.1 :: (c.tokens ++ [r.1])) (.whileLoop k l c r) (by simp [Derivation.tokens])

theorem breaks_ifStatement (ts : List Token) :
    Breaks (ifStatement e s) ts fun place => ∀ k : Terminal [.kwIf], Phrase.statement.Begins (k.1 :: ts) place := by
  refine breaks_expect (fun k => ?_) fun l ts₁ hl => breaks_phrase he (fun place h k => ?_) fun _ ts₂ =>
    breaks_expect (fun c hc k => ?_) fun r ts₃ hr => breaks_phrase hs (fun place h c hc k => ?_) fun _ ts₄ =>
      (breaks_behind hs fun t ts₅ place ht h b hb c hc k => ?_).last
  · exact begins_of [k.1] (.branch k default default default default .absent) (by simp [Derivation.tokens])
  · subst hl
    exact h.within [k.1, l.1] (.branch k l · default default .absent) (by simp [Derivation.tokens])
  · subst hl hc
    exact begins_of (k.1 :: l.1 :: c.tokens) (.branch k l c default default .absent) (by simp [Derivation.tokens])
  · subst hl hr hc
    simpa using h.within (k.1 :: l.1 :: (c.tokens ++ [r.1])) (.branch k l c r · .absent) (by simp [Derivation.tokens])
  · subst hl hr hc hb ht
    simpa using h.within (k.1 :: l.1 :: (c.tokens ++ r.1 :: (b.tokens ++ [t.1])))
      (fun d => .branch k l c r b (.present (.alternative t d))) (by simp [Derivation.tokens])

theorem breaks_forStatement (ts : List Token) :
    Breaks (forStatement e s) ts fun place => ∀ k : Terminal [.kwFor], Phrase.statement.Begins (k.1 :: ts) place := by
  refine breaks_expect (fun k => ?_) fun l ts₁ hl =>
    breaks_phrase (predicts_loopStart he) (fun place h k => ?_) fun _ ts₂ =>
      breaks_phrase (predicts_unlessNext .semicolon he) (fun place h a ha k => ?_) fun _ ts₃ =>
        breaks_expect (fun c hc a ha k => ?_) fun t ts₄ ht =>
          breaks_phrase (predicts_unlessNext .rightParen he) (fun place h c hc a ha k => ?_) fun _ ts₅ =>
            breaks_expect (fun i hi c hc a ha k => ?_) fun r ts₆ hr =>
              ((hs.breaks ts₆).mono fun place h i hi c hc a ha k => ?_).last
  · exact begins_of [k.1] (.forLoop k default (.startNothing default) default default default default default)
      (by simp [Derivation.tokens])
  · subst hl
    exact h.within [k.1, l.1] (.forLoop k l · default default default default default) (by simp [Derivation.tokens])
  · subst hl ha
    simpa using h.within (k.1 :: l.1 :: a.tokens) (.forLoop k l a · default default default default)
      (by simp [Derivation.tokens])
  · subst hl ha hc
    simpa using begins_of (k.1 :: l.1 :: (a.tokens ++ c.tokens)) (.forLoop k l a c default default default default)
      (by simp [Derivation.tokens])
  · subst hl ha hc ht
    simpa using h.within (k.1 :: l.1 :: (a.tokens ++ (c.tokens ++ [t.1]))) (.forLoop k l a c t · default default)
      (by simp [Derivation.tokens])
  · subst hl ha hc ht hi
    simpa using begins_of (k.1 :: l.1 :: (a.tokens ++ (c.tokens ++ t.1 :: i.tokens)))
      (.forLoop k l a c t i default default) (by simp [Derivation.tokens])
  · subst hl ha hc ht hi hr
    simpa using h.within (k.1 :: l.1 :: (a.tokens ++ (c.tokens ++ t.1 :: (i.tokens ++ [r.1]))))
      (.forLoop k l a c t i r) (by simp [Derivation.tokens])

end Statements

/-! Blocks and declarations -/

section Blocks

variable {item : Parser (Option α)} {declaration : Parser (Option Stmt)}

/-- What ends a body is looked at only. -/
theorem parses_bodyEnd (ts : List Token) :
    Parses (do return (← nextIs .rightBrace) || (← atEnd)) ts fun _ after => after = ts :=
  (parses_nextIs .rightBrace).bind fun _ _ => parses_atEnd.bind fun _ _ => parses_pure _ fun h₂ h₁ => h₂.2.trans h₁

theorem predicts_untilBrace (hp : q.Predicts item n) (hq : q.nullable = false) :
    (Phrase.many q).Predicts (untilBrace item) n where
  accepts := accepts_untilBrace hp.accepts hq
  breaks ts := by
    have hpart (ts : List Token) : Parses (unlessAt (do return (← nextIs .rightBrace) || (← atEnd)) item) ts
        (Perhaps (q.Spans n) (fun _ => True) ts) :=
      parses_unlessAt ((parses_bodyEnd ts).mono fun _ _ h => ⟨h, fun _ => trivial⟩) hp.accepts
    refine (breaks_collect hpart fun ts' => ?_).last
    refine breaks_unlessAt (parses_bodyEnd ts') ?_ hp fun place h hrest => begins_many hrest h
    exact Breaks.bind (parses_nextIs .rightBrace) (breaks_nextIs .rightBrace) fun _ _ => breaks_atEnd.last

theorem breaks_block (hp : Phrase.declaration.Predicts declaration n) (ts : List Token) :
    Breaks (block declaration) ts fun place => ∀ l : Terminal [.leftBrace], Phrase.block.Begins (l.1 :: ts) place := by
  refine breaks_phrase (predicts_untilBrace hp rfl) (fun place h l => ?_) fun _ _ =>
    breaks_expect (fun d hd l => ?_) fun _ _ _ => breaks_pure _
  · exact h.within [l.1] (.block l · default) (by simp [Derivation.tokens])
  · subst hd
    exact begins_of (l.1 :: d.tokens) (.block l d default) (by simp [Derivation.tokens])

theorem predicts_name {problem : ParseProblem} (h : problem.isMild = false) :
    Phrase.name.Predicts (expect .identifier problem) n where
  accepts := accepts_name problem h
  breaks ts := by
    rw [← bind_pure (expect .identifier problem)]
    exact breaks_expect (begins_of [] (.name default) List.nil_prefix) fun _ _ _ => breaks_pure _

theorem predicts_functionDeclaration (sort : FunctionSort) (hp : Phrase.declaration.Predicts declaration n) :
    Phrase.function.Predicts (functionDeclaration sort declaration) n where
  accepts := accepts_functionDeclaration sort hp.accepts
  breaks ts := by
    have hparameter : Phrase.name.Predicts (expect .identifier .parameterName) n := predicts_name rfl
    refine breaks_expect ?_ fun name ts₁ hname => breaks_expect ?_ fun l ts₂ hl =>
      breaks_phrase (predicts_listed hparameter rfl) (fun place h => ?_) fun _ ts₃ =>
        breaks_expect (fun ps hps => ?_) fun r ts₄ hr =>
          breaks_expect (fun ps hps => ?_) fun lb ts₅ hlb => ((breaks_block hp ts₅).mono fun place h ps hps => ?_).last
    · exact begins_of [] (.function default default default default default) List.nil_prefix
    · subst hname
      exact begins_of [name.1] (.function name default default default default) (by simp [Derivation.tokens])
    · subst hname hl
      exact h.within [name.1, l.1] (.function name l · default default) (by simp [Derivation.tokens])
    · subst hname hl hps
      exact begins_of (name.1 :: l.1 :: ps.tokens) (.function name l ps default default) (by simp [Derivation.tokens])
    · subst hname hl hr hps
      simpa using begins_of (name.1 :: l.1 :: (ps.tokens ++ [r.1])) (.function name l ps r default)
        (by simp [Derivation.tokens])
    · subst hname hl hr hlb hps
      simpa using (h lb).within (name.1 :: l.1 :: (ps.tokens ++ [r.1])) (.function name l ps r)
        (by simp [Derivation.tokens])

theorem breaks_classDeclaration (hp : Phrase.declaration.Predicts declaration n) (ts : List Token) :
    Breaks (classDeclaration declaration) ts fun place =>
      ∀ k : Terminal [.kwClass], Phrase.declaration.Begins (k.1 :: ts) place := by
  have hmethod := predicts_functionDeclaration .method hp
  have hmethods : Phrase.function.Predicts (some <$> functionDeclaration .method declaration) n :=
    ⟨fun ts => Parses.map (hmethod.accepts ts), fun ts => Breaks.map (hmethod.breaks ts)⟩
  refine breaks_expect (fun k => ?_) fun name ts₁ hname => breaks_expect (fun k => ?_) fun l ts₂ hl =>
    breaks_phrase (predicts_untilBrace hmethods rfl) (fun place h k => ?_) fun _ ts₃ =>
      breaks_expect (fun d hd k => ?_) fun _ _ _ => breaks_pure _
  · exact begins_of [k.1] (.classDeclaration k default default default default) (by simp [Derivation.tokens])
  · subst hname
    exact begins_of [k.1, name.1] (.classDeclaration k name default default default) (by simp [Derivation.tokens])
  · subst hname hl
    exact h.within [k.1, name.1, l.1] (.classDeclaration k name l · default) (by simp [Derivation.tokens])
  · subst hname hl hd
    exact begins_of (k.1 :: name.1 :: l.1 :: d.tokens) (.classDeclaration k name l d default)
      (by simp [Derivation.tokens])

end Blocks

/-! The recursion -/

theorem predicts_statements : ∀ n,
    Phrase.declaration.Predicts (declaration n) n ∧ Phrase.statement.Predicts (statement n) n
  | 0 => ⟨⟨(acceptsAll 0).declaration, fun _ => breaks_tooDeep⟩, ⟨(acceptsAll 0).statement, fun _ => breaks_tooDeep⟩⟩
  | n + 1 => by
    obtain ⟨hd, hs⟩ := predicts_statements n
    have he := (predicts_expressions n).1
    refine ⟨⟨(acceptsAll (n + 1)).declaration, fun ts => ?_⟩, ⟨(acceptsAll (n + 1)).statement, fun ts => ?_⟩⟩
    · unfold declaration
      refine Breaks.recovering (breaks_accept (fun _ => ?_) fun t ts₁ ht => ?_)
      · exact (hs.breaks ts).mono fun _ h => h.within [] .statement fun _ => List.prefix_rfl
      · subst ht
        dsimp only
        split
        · next hk => exact (breaks_classDeclaration hd ts₁).mono fun _ h => h ⟨t.1, by simp [hk]⟩
        · next hk =>
          exact ((predicts_functionDeclaration .function hd).breaks ts₁).mono fun _ h =>
            h.within [t.1] (.funDeclaration ⟨t.1, by simp [hk]⟩) fun _ => List.prefix_rfl
        · refine (breaks_varDeclaration he ts₁).mono fun _ h => ?_
          have ht : t.1.kind ∈ [TokenKind.kwVar] := by have := t.2; simp_all
          exact (h ⟨t.1, ht⟩).within [] .variable fun _ => List.prefix_rfl
    · unfold statement
      refine breaks_accept (fun _ => ?_) fun t ts₁ ht => ?_
      · exact ((predicts_expressionStatement he).breaks ts).mono fun _ h =>
          h.within [] .expression fun _ => List.prefix_rfl
      · subst ht
        dsimp only
        split
        · next hk => exact (breaks_forStatement he hs ts₁).mono fun _ h => h ⟨t.1, by simp [hk]⟩
        · next hk => exact (breaks_ifStatement he hs ts₁).mono fun _ h => h ⟨t.1, by simp [hk]⟩
        · next hk => exact (breaks_printStatement he ts₁).mono fun _ h => h ⟨t.1, by simp [hk]⟩
        · next hk => exact (breaks_returnStatement he t.1 ts₁).mono fun _ h => h ⟨t.1, by simp [hk]⟩
        · next hk => exact (breaks_whileStatement he hs ts₁).mono fun _ h => h ⟨t.1, by simp [hk]⟩
        · have ht : t.1.kind ∈ [TokenKind.leftBrace] := by have := t.2; simp_all
          exact ((breaks_block hd ts₁).mono fun _ h =>
            (h ⟨t.1, ht⟩).within [] .nested fun _ => List.prefix_rfl).last

/-- A program breaks off behind the beginning of another one. -/
theorem breaks_program (n : Nat) (ts : List Token) :
    Breaks (program n) ts ((Phrase.many .declaration).Begins ts) := by
  have hp : Phrase.declaration.Predicts (limiting (declaration n)) n :=
    ⟨fun ts => ((acceptsAll n).declaration ts).limiting, fun ts => ((predicts_statements n).1.breaks ts).limiting⟩
  have hstop (ts : List Token) : Parses atEnd ts fun _ after => after = ts := parses_atEnd.mono fun _ _ h => h.2
  refine (breaks_collect (fun ts => parses_unlessAt (T := fun _ => True) ?_ hp.accepts) fun ts' => ?_).last
  · exact (hstop ts).mono fun _ _ h => ⟨h, fun _ => trivial⟩
  · exact breaks_unlessAt (hstop ts') breaks_atEnd hp fun place h hrest => begins_many hrest h

end Parser
end Lox
