import Lox.Proofs.Grammar.Persists

/-! Parsing without recovery. What the parser recovers from stands in a body between braces. So of tokens without an
opening brace a declaration either ends with a semicolon, with nothing but problems passed over on the way, or breaks
off over one more problem, which is reported at the place where it stands. -/

namespace Lox
namespace Parser

variable {α β : Type} {p : Parser α} {f : α → Parser β} {ts : List Token} {P Q : α → List Token → Prop}
  {R : β → List Token → Prop}

/-- Problems passed over before the tokens `after`. -/
def PassedOver (after : List Token) (es : Array ParseError) : Prop :=
  ∀ e ∈ es, e.problem.isMild ∧ after <:+ e.place

theorem passedOver_empty (after : List Token) : PassedOver after #[] := fun _ h => nomatch h

theorem PassedOver.append {after after' : List Token} {es es' : Array ParseError} (h : PassedOver after es)
    (h' : PassedOver after' es') (hafter : after' <:+ after) : PassedOver after' (es ++ es') := by
  intro e he
  rcases Array.mem_append.1 he with he | he
  · exact ⟨(h e he).1, hafter.trans (h e he).2⟩
  · exact h' e he

/-- What a run says at its very end. -/
def LastWord (es : Array ParseError) : EStateM.Result Halt Cursor α → Prop
  | .error .malformed c => ∃ problem, es = #[⟨c.rest, problem⟩]
  | _ => es = #[]

/-- An end, with nothing recovered from, of a run that began with the tokens `ts` when `errors` had been reported. A
result and the tokens left with it are as `Q` says. -/
structure PlainEnd (ts : List Token) (errors : Array ParseError) (Q : α → List Token → Prop)
    (r : EStateM.Result Halt Cursor α) : Prop where
  rest : (ending r).rest <:+ ts
  reported : ∃ es last, (ending r).errors = errors ++ es ++ last ∧ PassedOver (ending r).rest es ∧ LastWord last r
  result : ∀ a c, r = .ok a c → Q a c.rest

def Plain (p : Parser α) (ts : List Token) (Q : α → List Token → Prop) : Prop :=
  ∀ errors, PlainEnd ts errors Q (p ⟨ts, errors⟩)

theorem Plain.mono (hp : Plain p ts P) (h : ∀ a after, P a after → Q a after) : Plain p ts Q := fun errors =>
  { hp errors with result := fun a c hr => h a _ ((hp errors).result a c hr) }

theorem Plain.bind (hp : Plain p ts P) (hf : ∀ a ts', ts' <:+ ts → P a ts' → Plain (f a) ts' R) :
    Plain (p >>= f) ts R := by
  intro errors
  obtain ⟨hrest, ⟨es, last, hes, hover, hlast⟩, hresult⟩ := hp errors
  cases hr : p ⟨ts, errors⟩ with
  | ok a c =>
    rw [hr] at hrest hes hover hlast
    obtain ⟨hrest', ⟨es', last', hes', hover', hlast'⟩, hresult'⟩ := hf a c.rest hrest (hresult a c hr) c.errors
    obtain rfl : last = #[] := hlast
    rw [bind_of_ok hr]
    refine ⟨hrest'.trans hrest, ⟨es ++ es', last', ?_, hover.append hover' hrest', hlast'⟩, hresult'⟩
    rw [hes', show c.errors = errors ++ es ++ #[] from hes, Array.append_empty, ← Array.append_assoc]
  | error halt c =>
    rw [hr] at hrest hes hover hlast
    rw [bind_of_error hr]
    refine ⟨hrest, ⟨es, last, hes, hover, ?_⟩, fun b c' hb => nomatch hb⟩
    cases halt <;> exact hlast

/-- A step that says nothing. -/
theorem plainEnd_ok {errors : Array ParseError} {a : α} {after : List Token} (hafter : after <:+ ts) (h : Q a after) :
    PlainEnd ts errors Q (.ok a ⟨after, errors⟩) :=
  ⟨hafter, ⟨#[], #[], by simp [ending], passedOver_empty _, rfl⟩, fun _ _ hr => by cases hr; exact h⟩

theorem plain_pure (a : α) (h : Q a ts) : Plain (pure a) ts Q := fun _ => plainEnd_ok List.suffix_rfl h

theorem plain_tooDeep : Plain (throw .tooDeep) ts Q := fun _ =>
  ⟨List.suffix_rfl, ⟨#[], #[], by simp [ending]; rfl, passedOver_empty _, rfl⟩, fun _ _ hr => nomatch hr⟩

/-- A parser behind which only its result is put together. -/
theorem Plain.last {g : α → β} (hp : Plain p ts fun a after => R (g a) after) :
    Plain (p >>= fun a => pure (g a)) ts R := hp.bind fun a _ _ h => plain_pure (g a) h

theorem Plain.map {g : α → β} (hp : Plain p ts fun a after => R (g a) after) : Plain (g <$> p) ts R := by
  rw [map_eq_pure_bind]
  exact hp.last

theorem plain_place {f : List Token → Parser α} (hf : Plain (f ts) ts Q) : Plain (place >>= f) ts Q := fun errors =>
  hf errors

theorem plain_nextIs (kind : TokenKind) : Plain (nextIs kind) ts fun _ after => after = ts := fun _ =>
  plainEnd_ok List.suffix_rfl rfl

theorem plain_report {place : List Token} {problem : ParseProblem} (hp : problem.isMild) (hts : ts <:+ place) :
    Plain (report place problem) ts fun _ after => after = ts := fun errors =>
  ⟨List.suffix_rfl, ⟨#[⟨place, problem⟩], #[], by simp [ending, report], by
    intro e he
    obtain rfl := Array.mem_singleton.1 he
    exact ⟨hp, hts⟩, rfl⟩, fun _ _ hr => by cases hr; rfl⟩

theorem plain_fail (problem : ParseProblem) : Plain (fail problem) ts Q := fun errors =>
  ⟨List.suffix_rfl, ⟨#[], #[⟨ts, problem⟩], by simp [ending, fail]; rfl, passedOver_empty _, problem, rfl⟩,
    fun _ _ hr => nomatch hr⟩

theorem plain_accept (kinds : List TokenKind) : Plain (accept kinds) ts (Takes kinds ts) := by
  intro errors
  unfold accept
  cases ts with
  | nil => exact plainEnd_ok List.suffix_rfl ⟨nofun, rfl⟩
  | cons t ts =>
    by_cases ht : t.kind ∈ kinds
    · simp only [if_pos ht]
      exact plainEnd_ok (List.suffix_cons t ts) ⟨ht, rfl⟩
    · simp only [if_neg ht]
      exact plainEnd_ok List.suffix_rfl ⟨avoids_cons.2 ht, rfl⟩

theorem plain_expect (kind : TokenKind) (problem : ParseProblem) :
    Plain (expect kind problem) ts fun t after => t.kind = kind ∧ ts = t :: after := by
  refine (plain_accept [kind]).bind fun o ts' _ ho => ?_
  cases o with
  | none => exact plain_fail problem
  | some t => exact plain_pure t ⟨List.mem_singleton.1 ho.1, ho.2⟩

/-! Expressions. Nothing in them is recovered from, whatever the tokens are. -/

/-- Whether nothing is ever recovered from. -/
abbrev AlwaysPlain (p : Parser α) : Prop := ∀ ts, Plain p ts fun _ _ => True

theorem AlwaysPlain.bind (hp : AlwaysPlain p) (hf : ∀ a, AlwaysPlain (f a)) : AlwaysPlain (p >>= f) := fun ts =>
  (hp ts).bind fun a ts' _ _ => hf a ts'

theorem alwaysPlain_pure (a : α) : AlwaysPlain (pure a) := fun _ => plain_pure a trivial

theorem AlwaysPlain.last {g : α → β} (hp : AlwaysPlain p) : AlwaysPlain (p >>= fun a => pure (g a)) :=
  hp.bind fun a => alwaysPlain_pure (g a)

theorem alwaysPlain_expect (kind : TokenKind) (problem : ParseProblem) : AlwaysPlain (expect kind problem) :=
  fun _ => (plain_expect kind problem).mono fun _ _ _ => trivial

theorem alwaysPlain_accept {kinds : List TokenKind} {f : Option Token → Parser β}
    (hsome : ∀ t, t.kind ∈ kinds → AlwaysPlain (f (some t))) (hnone : AlwaysPlain (f none)) :
    AlwaysPlain (accept kinds >>= f) := by
  refine fun ts => (plain_accept kinds).bind fun o ts' _ ho => ?_
  cases o with
  | none => exact hnone ts'
  | some t => exact hsome t ho.1 ts'

theorem alwaysPlain_collect {step : Parser (Option α)} (hstep : AlwaysPlain step) : AlwaysPlain (collect step) := by
  have hwithin (left : List Token) : AlwaysPlain (collectWithin step left) := by
    induction left with
    | nil => exact alwaysPlain_pure []
    | cons _ left ih =>
      refine hstep.bind fun o => ?_
      cases o with
      | none => exact alwaysPlain_pure []
      | some a => exact ih.last
  refine hstep.bind fun o => ?_
  cases o with
  | none => exact alwaysPlain_pure []
  | some a => exact fun ts => plain_place ((hwithin ts).last ts)

theorem alwaysPlain_behind (kinds : List TokenKind) (hp : AlwaysPlain p) : AlwaysPlain (behind kinds p) :=
  alwaysPlain_accept (fun _ _ => hp.last) (alwaysPlain_pure none)

theorem alwaysPlain_unlessNext (kind : TokenKind) (hp : AlwaysPlain p) : AlwaysPlain (unlessAt (nextIs kind) p) := by
  refine fun ts => (plain_nextIs kind).bind fun b ts' _ _ => ?_
  cases b with
  | true => exact plain_pure none trivial
  | false => exact (hp ts').map

theorem alwaysPlain_listed (hp : AlwaysPlain p) {problem : ParseProblem} (h : problem.isMild) :
    AlwaysPlain (listed p problem) := by
  have hitems : AlwaysPlain (commaSeparated p) :=
    hp.bind fun _ => (alwaysPlain_collect (alwaysPlain_behind [.comma] hp)).last
  have hlength (items : List α) : AlwaysPlain (checkLength items problem) := by
    intro ts
    unfold checkLength
    split
    · exact plain_place ((plain_report h List.suffix_rfl).mono fun _ _ _ => trivial)
    · exact plain_pure () trivial
  exact (alwaysPlain_unlessNext .rightParen hitems).bind fun _ => (hlength _).last

theorem alwaysPlain_levels {operand : Parser Expr} (h : AlwaysPlain operand) (levels : List (List TokenKind)) :
    AlwaysPlain (levels.foldr leftAssoc operand) := by
  induction levels with
  | nil => exact h
  | cons kinds levels ih => exact ih.bind fun _ => (alwaysPlain_collect (alwaysPlain_behind kinds ih)).last

section Operands

variable {e : Parser Expr} (he : AlwaysPlain e)

include he

theorem alwaysPlain_primary : AlwaysPlain (primary e) := by
  refine alwaysPlain_accept (fun t _ => ?_) fun _ => plain_fail .expression
  dsimp only
  split
  case h_6 => exact he.bind fun _ => (alwaysPlain_expect .rightParen .groupingEnd).last
  all_goals exact alwaysPlain_pure _

theorem alwaysPlain_suffix : AlwaysPlain (suffix e) :=
  alwaysPlain_accept
    (fun _ _ => (alwaysPlain_listed he rfl).bind fun _ => (alwaysPlain_expect .rightParen .argumentsEnd).last)
    (alwaysPlain_accept (fun _ _ => (alwaysPlain_expect .identifier .propertyName).last) (alwaysPlain_pure none))

theorem alwaysPlain_suffixed : AlwaysPlain (suffixed e) :=
  (alwaysPlain_primary he).bind fun _ => (alwaysPlain_collect (alwaysPlain_suffix he)).last

end Operands

theorem alwaysPlain_expressions : ∀ n, AlwaysPlain (expression n) ∧ AlwaysPlain (unary n)
  | 0 => ⟨fun _ => plain_tooDeep, fun _ => plain_tooDeep⟩
  | n + 1 => by
    obtain ⟨he, hu⟩ := alwaysPlain_expressions n
    constructor
    · intro ts
      unfold expression
      refine (alwaysPlain_levels hu binaryLevels ts).bind fun target ts₁ _ _ =>
        plain_place ((plain_accept [.equal]).bind fun o ts₂ hts₂ ho => ?_)
      cases o with
      | none => exact plain_pure target trivial
      | some _ =>
        refine (he ts₂).bind fun value ts₃ hts₃ _ => ?_
        cases assignment? target value with
        | some e => exact plain_pure e trivial
        | none =>
          -- the assignment is reported at its equals sign, which has been read by now
          exact (plain_report rfl (hts₃.trans hts₂)).bind fun _ _ _ _ => plain_pure target trivial
    · unfold unary
      exact alwaysPlain_accept (fun _ _ => hu.last) (alwaysPlain_suffixed he)

/-! Statements -/

def Braceless (ts : List Token) : Prop := ∀ t ∈ ts, t.kind ≠ .leftBrace

theorem Braceless.suffix {ts' : List Token} (h : Braceless ts) (hts : ts' <:+ ts) : Braceless ts' := fun t ht =>
  h t (hts.subset ht)

/-- Whether the tokens used up of `ts` end with a semicolon. -/
def EndsAt (ts after : List Token) : Prop := ∃ t : Token, t.kind = .semicolon ∧ t :: after <:+ ts

theorem EndsAt.mono {ts' after : List Token} (h : EndsAt ts' after) (hts : ts' <:+ ts) : EndsAt ts after := by
  obtain ⟨t, ht, hafter⟩ := h
  exact ⟨t, ht, hafter.trans hts⟩

/-- Whether nothing is recovered from, and a semicolon is the last token used up. -/
abbrev Ends (p : Parser α) (ts : List Token) : Prop := Plain p ts fun _ after => EndsAt ts after

theorem Plain.ends (hp : Plain p ts P) (hf : ∀ a ts', ts' <:+ ts → P a ts' → Ends (f a) ts') : Ends (p >>= f) ts :=
  hp.bind fun a ts' hts h => (hf a ts' hts h).mono fun _ _ hends => hends.mono hts

theorem Ends.last {g : α → β} (hp : Ends p ts) : Ends (p >>= fun a => pure (g a)) ts :=
  hp.bind fun a _ _ h => plain_pure (g a) h

theorem ends_semicolon {problem : ParseProblem} {g : Token → α} :
    Ends (expect .semicolon problem >>= fun t => pure (g t)) ts :=
  (plain_expect .semicolon problem).bind fun t _ _ h => plain_pure (g t) ⟨t, h.1, h.2 ▸ List.suffix_rfl⟩

/-- There is no opening brace to go on behind. -/
theorem plain_leftBrace (hts : Braceless ts) (problem : ParseProblem) {f : Token → Parser α} :
    Plain (expect .leftBrace problem >>= f) ts Q :=
  (plain_expect .leftBrace problem).bind fun t _ _ h => absurd h.1 (hts t (h.2 ▸ List.mem_cons_self))

section Statements

variable {e : Parser Expr} {s : Parser Stmt} (he : AlwaysPlain e) (hs : ∀ ts, Braceless ts → Ends s ts)

include he

theorem ends_expressionStatement (ts : List Token) : Ends (expressionStatement e) ts :=
  (he ts).ends fun _ _ _ _ => ends_semicolon

theorem ends_varDeclaration (ts : List Token) : Ends (varDeclaration e) ts :=
  (plain_expect .identifier .variableName).ends fun _ ts₁ _ _ => (alwaysPlain_behind [.equal] he ts₁).ends
    fun _ _ _ _ => ends_semicolon

theorem ends_printStatement (ts : List Token) : Ends (printStatement e) ts :=
  (he ts).ends fun _ _ _ _ => ends_semicolon

theorem ends_returnStatement (keyword : Token) (ts : List Token) : Ends (returnStatement keyword e) ts :=
  (alwaysPlain_unlessNext .semicolon he ts).ends fun _ _ _ _ => ends_semicolon

theorem alwaysPlain_loopStart : AlwaysPlain (loopStart e) := by
  refine alwaysPlain_accept (fun t _ => ?_) fun ts => .map ((ends_expressionStatement he ts).mono fun _ _ _ => trivial)
  dsimp only
  split
  · exact fun ts => .map ((ends_varDeclaration he ts).mono fun _ _ _ => trivial)
  · exact alwaysPlain_pure none

include hs

theorem ends_whileStatement (hts : Braceless ts) : Ends (whileStatement e s) ts :=
  (plain_expect .leftParen .whileParen).ends fun _ ts₁ h₁ _ => (he ts₁).ends fun _ _ h₂ _ =>
    (plain_expect .rightParen .whileEnd).ends fun _ ts₃ h₃ _ =>
      Ends.last (hs ts₃ (((hts.suffix h₁).suffix h₂).suffix h₃))

theorem ends_ifStatement (hts : Braceless ts) : Ends (ifStatement e s) ts := by
  refine (plain_expect .leftParen .ifParen).ends fun _ ts₁ h₁ _ => (he ts₁).ends fun _ ts₂ h₂ _ =>
    (plain_expect .rightParen .ifEnd).ends fun _ ts₃ h₃ _ => ?_
  have hts₃ : Braceless ts₃ := ((hts.suffix h₁).suffix h₂).suffix h₃
  refine (hs ts₃ hts₃).bind fun _ ts₄ h₄ hends => .last ((plain_accept [.kwElse]).bind fun o ts₅ h₅ ho => ?_)
  cases o with
  | none =>
    -- without an `else` it is the first branch that ends the whole
    obtain ⟨-, rfl⟩ := ho
    exact plain_pure none hends
  | some t =>
    exact (hs ts₅ ((hts₃.suffix h₄).suffix h₅)).bind fun b _ _ h => plain_pure (some (t, b)) (h.mono (h₅.trans h₄))

theorem ends_forStatement (hts : Braceless ts) : Ends (forStatement e s) ts :=
  (plain_expect .leftParen .forParen).ends fun _ ts₁ h₁ _ => (alwaysPlain_loopStart he ts₁).ends fun _ ts₂ h₂ _ =>
    (alwaysPlain_unlessNext .semicolon he ts₂).ends fun _ _ h₃ _ =>
      (plain_expect .semicolon .forCondition).ends fun _ ts₄ h₄ _ =>
        (alwaysPlain_unlessNext .rightParen he ts₄).ends fun _ _ h₅ _ =>
          (plain_expect .rightParen .forEnd).ends fun _ ts₆ h₆ _ =>
            Ends.last (hs ts₆ ((((((hts.suffix h₁).suffix h₂).suffix h₃).suffix h₄).suffix h₅).suffix h₆))

end Statements

theorem ends_statement : ∀ (n : Nat) (ts : List Token), Braceless ts → Ends (statement n) ts
  | 0, _, _ => plain_tooDeep
  | n + 1, ts, hts => by
    have he := (alwaysPlain_expressions n).1
    have hs := ends_statement n
    unfold statement
    refine (plain_accept _).ends fun o ts₁ h₁ ho => ?_
    cases o with
    | none => exact ends_expressionStatement he ts₁
    | some t =>
      have hts₁ : Braceless ts₁ := hts.suffix h₁
      dsimp only
      split
      · exact ends_forStatement he hs hts₁
      · exact ends_ifStatement he hs hts₁
      · exact ends_printStatement he ts₁
      · exact ends_returnStatement he t ts₁
      · exact ends_whileStatement he hs hts₁
      · -- a block begins with a brace
        obtain ⟨hkind, rfl⟩ := ho
        exact absurd (show t.kind = .leftBrace by simp_all) (hts t List.mem_cons_self)

theorem ends_rawDeclaration (n : Nat) (hts : Braceless ts) : Ends (rawDeclaration n) ts := by
  have hname : AlwaysPlain (expect .identifier .parameterName) := alwaysPlain_expect .identifier .parameterName
  refine (plain_accept _).ends fun o ts₁ h₁ _ => ?_
  have hts₁ : Braceless ts₁ := hts.suffix h₁
  cases o with
  | none => exact ends_statement n ts₁ hts₁
  | some t =>
    dsimp only
    split
    · exact (plain_expect .identifier .className).ends fun _ _ h₂ _ => plain_leftBrace (hts₁.suffix h₂) .classBody
    · exact (plain_expect .identifier (.functionName .function)).ends fun _ _ h₂ _ =>
        (plain_expect .leftParen (.functionParen .function)).ends fun _ ts₃ h₃ _ =>
          (alwaysPlain_listed hname rfl ts₃).ends fun _ _ h₄ _ =>
            (plain_expect .rightParen .parametersEnd).ends fun _ _ h₅ _ =>
              plain_leftBrace ((((hts₁.suffix h₂).suffix h₃).suffix h₄).suffix h₅) (.functionBody .function)
    · exact ends_varDeclaration (alwaysPlain_expressions n).1 ts₁

end Parser
end Lox
