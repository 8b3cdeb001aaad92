import Lox.Proofs.Grammar.Reads
import Mathlib.Logic.Relation

/-! Runs of a parser, whether they succeed or not. Some problems are reported and passed over, after all
others a parser drops tokens or gives up. `Parses p ts Q` says that `p` only adds to what has been reported,
that it gives up over a problem of the second sort, and that without one of them its result and the tokens
left are as `Q` says. Nothing need be known of a run once such a problem has been reported, so `Q` is
shown from what held of the steps before only at the very end. -/

namespace Lox

/-- The problems that are passed over: the tokens they stand at are read on. -/
def ParseProblem.isMild : ParseProblem → Bool
  | assignmentTarget | tooManyParameters | tooManyArguments => true
  | _ => false

def Mild (es : Array ParseError) : Prop := ∀ e ∈ es, e.problem.isMild

theorem mild_empty : Mild #[] := fun _ h => nomatch h

theorem mild_append {es es' : Array ParseError} : Mild (es ++ es') ↔ Mild es ∧ Mild es' := by
  simp only [Mild, Array.mem_append]
  exact ⟨fun h => ⟨fun e he => h e (.inl he), fun e he => h e (.inr he)⟩,
    fun h e he => he.elim (h.1 e) (h.2 e)⟩

theorem not_mild_singleton {e : ParseError} (h : e.problem.isMild = false) : ¬ Mild #[e] := fun hm => by
  simpa [h] using hm e (by simp)

namespace Parser

variable {α β : Type} {p : Parser α} {f : α → Parser β} {ts : List Token}
  {P Q : α → List Token → Prop} {R : β → List Token → Prop}

/-- What a run ends in that began when `errors` had been reported. -/
def EndsAs (errors : Array ParseError) (Q : α → List Token → Prop) : EStateM.Result Halt Cursor α → Prop
  | .ok a c => ∃ es, c.errors = errors ++ es ∧ (Mild es → Q a c.rest)
  | .error halt c => ∃ es, c.errors = errors ++ es ∧ (halt = .malformed → ¬ Mild es)

def Parses (p : Parser α) (ts : List Token) (Q : α → List Token → Prop) : Prop :=
  ∀ errors, EndsAs errors Q (p ⟨ts, errors⟩)

theorem Parses.mono (h : Parses p ts P) (hq : ∀ a after, P a after → Q a after) : Parses p ts Q := by
  intro errors
  have hp := h errors
  cases hr : p ⟨ts, errors⟩ with
  | ok a c =>
    rw [hr] at hp
    obtain ⟨es, hes, hm⟩ := hp
    exact ⟨es, hes, fun hmild => hq a _ (hm hmild)⟩
  | error halt c => rwa [hr] at hp

theorem Parses.bind (h : Parses p ts P)
    (hf : ∀ a ts', Parses (f a) ts' fun b after => P a ts' → R b after) : Parses (p >>= f) ts R := by
  intro errors
  have hp := h errors
  show EndsAs errors R (EStateM.bind p f _)
  unfold EStateM.bind
  cases hr : p ⟨ts, errors⟩ with
  | error halt c => rwa [hr] at hp
  | ok a c =>
    rw [hr] at hp
    obtain ⟨es, hes, hm⟩ := hp
    have hb := hf a c.rest c.errors
    dsimp only
    cases hr' : f a c with
    | ok b c' =>
      rw [hr'] at hb
      obtain ⟨es', hes', hm'⟩ := hb
      refine ⟨es ++ es', by rw [hes', hes, Array.append_assoc], fun hmild => ?_⟩
      obtain ⟨h₁, h₂⟩ := mild_append.1 hmild
      exact hm' h₂ (hm h₁)
    | error halt c' =>
      rw [hr'] at hb
      obtain ⟨es', hes', hm'⟩ := hb
      exact ⟨es ++ es', by rw [hes', hes, Array.append_assoc],
        fun hh hmild => hm' hh (mild_append.1 hmild).2⟩

/-- A step that says nothing. -/
theorem endsAs_ok {errors : Array ParseError} {a : α} (h : Q a ts) :
    EndsAs errors Q (.ok a ⟨ts, errors⟩) := ⟨#[], Array.append_empty.symm, fun _ => h⟩

theorem parses_pure (a : α) (h : Q a ts) : Parses (pure a) ts Q := fun _ => endsAs_ok h

theorem parses_tooDeep : Parses (throw .tooDeep) ts Q := fun _ =>
  ⟨#[], Array.append_empty.symm, fun h => nomatch h⟩

theorem Parses.map {g : α → β} (h : Parses p ts fun a after => R (g a) after) :
    Parses (g <$> p) ts R := by
  intro errors
  have hp := h errors
  show EndsAs errors R (EStateM.map g p _)
  unfold EStateM.map
  cases hr : p ⟨ts, errors⟩ <;> rwa [hr] at hp

theorem parses_place : Parses place ts fun a after => a = ts ∧ after = ts := fun _ => endsAs_ok ⟨rfl, rfl⟩

theorem parses_nextIs (kind : TokenKind) : Parses (nextIs kind) ts fun _ after => after = ts :=
  fun _ => endsAs_ok rfl

theorem parses_atEnd : Parses atEnd ts fun b after => b = ts.isEmpty ∧ after = ts := fun _ =>
  endsAs_ok ⟨rfl, rfl⟩

theorem parses_report (place : List Token) (problem : ParseProblem) :
    Parses (report place problem) ts fun _ after => after = ts := fun _ =>
  ⟨#[⟨place, problem⟩], Array.push_eq_append, fun _ => rfl⟩

theorem parses_fail (problem : ParseProblem) (h : problem.isMild = false) :
    Parses (fail problem) ts Q := fun _ =>
  ⟨#[⟨ts, problem⟩], Array.push_eq_append, fun _ => not_mild_singleton h⟩

/-- What `accept` does with the tokens. -/
def Takes (kinds : List TokenKind) (ts : List Token) : Option Token → List Token → Prop
  | none, after => Avoids kinds ts ∧ after = ts
  | some t, after => t.kind ∈ kinds ∧ ts = t :: after

theorem parses_accept (kinds : List TokenKind) : Parses (accept kinds) ts (Takes kinds ts) := by
  intro errors
  unfold accept
  cases ts with
  | nil => exact endsAs_ok ⟨nofun, rfl⟩
  | cons t ts =>
    by_cases ht : t.kind ∈ kinds
    · simp only [if_pos ht]
      exact endsAs_ok ⟨ht, rfl⟩
    · simp only [if_neg ht]
      exact endsAs_ok ⟨avoids_cons.2 ht, rfl⟩

theorem parses_expect (kind : TokenKind) (problem : ParseProblem) (h : problem.isMild = false) :
    Parses (expect kind problem) ts fun t after => t.kind ∈ [kind] ∧ ts = t :: after := by
  refine (parses_accept [kind]).bind fun o ts' => ?_
  cases o with
  | none => exact parses_fail problem h
  | some t => exact parses_pure t id


theorem Parses.recovering {S : List Token → Prop} (h : Parses p ts fun _ after => S after) :
    Parses (recovering p) ts fun _ after => S after := by
  intro errors
  have hp := h errors
  unfold Parser.recovering
  cases hr : p ⟨ts, errors⟩ with
  | ok a c => rwa [hr] at hp
  | error halt c =>
    rw [hr] at hp
    obtain ⟨es, hes, hm⟩ := hp
    cases halt with
    | malformed => exact ⟨es, hes, fun hmild => absurd hmild (hm rfl)⟩
    | tooDeep => exact ⟨es, hes, fun hh => nomatch hh⟩

theorem Parses.limiting {p : Parser (Option α)} {Q : Option α → List Token → Prop} (h : Parses p ts Q) :
    Parses (limiting p) ts Q := by
  intro errors
  have hp := h errors
  unfold Parser.limiting
  cases hr : p ⟨ts, errors⟩ with
  | ok a c => rwa [hr] at hp
  | error halt c =>
    rw [hr] at hp
    cases halt with
    | malformed => exact hp
    | tooDeep =>
      obtain ⟨es, hes, -⟩ := hp
      refine ⟨es.push ⟨c.rest, .nesting⟩, ?_, fun hmild => ?_⟩
      · rw [Array.push_eq_append, hes, Array.append_assoc, ← Array.push_eq_append]
      · rw [Array.push_eq_append] at hmild
        exact absurd (mild_append.1 hmild).2 (not_mild_singleton rfl)

/-- What `behind` does with the tokens, if its item makes `S` of those behind the first. -/
def TakesBehind (kinds : List TokenKind) (S : List Token → List Token → Prop) (ts : List Token) :
    Option (Token × α) → List Token → Prop
  | none, after => Avoids kinds ts ∧ after = ts
  | some r, after => r.1.kind ∈ kinds ∧ ∃ ts', ts = r.1 :: ts' ∧ S ts' after

variable {S : List Token → List Token → Prop}

theorem parses_behind (kinds : List TokenKind) (h : ∀ ts, Parses p ts fun _ after => S ts after) :
    Parses (behind kinds p) ts (TakesBehind kinds S ts) := by
  refine (parses_accept kinds).bind fun o ts' => ?_
  cases o with
  | none => exact parses_pure none id
  | some t =>
    exact (h ts').bind fun a after => parses_pure (some (t, a)) fun hs ht => ⟨ht.1, ts', ht.2, hs⟩

/-- What an item does that need not be there, if it makes `S` of the tokens and `T` holds where there is
none. -/
def Perhaps (S : List Token → List Token → Prop) (T : List Token → Prop) (ts : List Token) :
    Option α → List Token → Prop
  | none, after => after = ts ∧ T ts
  | some _, after => S ts after

theorem parses_unlessAt {stop : Parser Bool} {T : List Token → Prop}
    (hs : Parses stop ts fun b after => after = ts ∧ (b = true → T ts))
    (h : ∀ ts, Parses p ts fun _ after => S ts after) :
    Parses (unlessAt stop p) ts (Perhaps S T ts) := by
  refine hs.bind fun b ts' => ?_
  cases b with
  | true => exact parses_pure none fun hb => ⟨hb.1, hb.2 rfl⟩
  | false => exact ((h ts').mono fun a after hs hb => by rw [← hb.1]; exact hs).map

theorem parses_checkLength (items : List α) (problem : ParseProblem) :
    Parses (checkLength items problem) ts fun _ after => after = ts := by
  unfold checkLength
  split
  · exact parses_place.bind fun place ts' =>
      (parses_report place problem).mono fun _ _ h hp => h.trans hp.2
  · exact parses_pure () rfl

/-- A loop makes one item after another of the tokens, up to where `T` holds. -/
theorem parses_collectWithin {step : Parser (Option α)} {T : List Token → Prop}
    (h : ∀ ts, Parses step ts (Perhaps S T ts)) (hlt : ∀ ts after, S ts after → after.length < ts.length)
    (hT : T []) (left : List Token) : ∀ ts, Parses (collectWithin step left) ts fun _ after =>
      ts.length ≤ left.length → Relation.ReflTransGen S ts after ∧ T after := by
  induction left with
  | nil =>
    intro ts
    refine parses_pure [] fun hl => ?_
    obtain rfl := List.eq_nil_of_length_eq_zero (Nat.le_zero.1 hl)
    exact ⟨.refl, hT⟩
  | cons _ left ih =>
    intro ts
    refine (h ts).bind fun o ts' => ?_
    cases o with
    | none => exact parses_pure [] fun ⟨he, ht⟩ _ => by subst he; exact ⟨.refl, ht⟩
    | some a =>
      refine (ih ts').bind fun as after => parses_pure (a :: as) fun hr hs hl => ?_
      have hle : ts'.length ≤ left.length := by have := hlt ts ts' hs; simp at hl; omega
      exact ⟨.head hs (hr hle).1, (hr hle).2⟩

theorem parses_collect {step : Parser (Option α)} {T : List Token → Prop}
    (h : ∀ ts, Parses step ts (Perhaps S T ts)) (hlt : ∀ ts after, S ts after → after.length < ts.length)
    (hT : T []) : Parses (collect step) ts fun _ after => Relation.ReflTransGen S ts after ∧ T after := by
  refine (h ts).bind fun o ts₁ => ?_
  cases o with
  | none => exact parses_pure [] fun ⟨he, ht⟩ => by subst he; exact ⟨.refl, ht⟩
  | some a =>
    refine parses_place.bind fun place ts₂ => ?_
    refine (parses_collectWithin h hlt hT place ts₂).bind fun as after => parses_pure (a :: as) ?_
    rintro hr ⟨rfl, rfl⟩ hs
    obtain ⟨hr, ht⟩ := hr (Nat.le_refl _)
    exact ⟨.head hs hr, ht⟩

/-! Parsers that never give up. -/

def Answers (p : Parser α) : Prop := ∀ c, ∃ a c', p c = .ok a c'

theorem answers_pure (a : α) : Answers (pure a) := fun c => ⟨a, c, rfl⟩

theorem Answers.bind (h : Answers p) (hf : ∀ a, Answers (f a)) : Answers (p >>= f) := by
  intro c
  obtain ⟨a, c', ha⟩ := h c
  obtain ⟨b, c'', hb⟩ := hf a c'
  refine ⟨b, c'', ?_⟩
  show EStateM.bind p f c = _
  simp only [EStateM.bind, ha, hb]

theorem Answers.map {g : α → β} (h : Answers p) : Answers (g <$> p) := by
  intro c
  obtain ⟨a, c', ha⟩ := h c
  refine ⟨g a, c', ?_⟩
  show EStateM.map g p c = _
  simp only [EStateM.map, ha]

theorem answers_collectWithin {step : Parser (Option α)} (h : Answers step) (left : List Token) :
    Answers (collectWithin step left) := by
  induction left with
  | nil => exact answers_pure []
  | cons _ left ih =>
    refine h.bind fun o => ?_
    cases o with
    | none => exact answers_pure []
    | some a => exact ih.bind fun as => answers_pure (a :: as)

theorem answers_collect {step : Parser (Option α)} (h : Answers step) : Answers (collect step) := by
  refine h.bind fun o => ?_
  cases o with
  | none => exact answers_pure []
  | some a =>
    have hplace : Answers place := fun c => ⟨c.rest, c, rfl⟩
    exact hplace.bind fun left =>
      (answers_collectWithin h left).bind fun as => answers_pure (a :: as)

theorem answers_limiting_recovering (p : Parser α) : Answers (limiting (recovering p)) := by
  intro c
  unfold limiting recovering
  cases p c with
  | ok a c => exact ⟨some a, c, rfl⟩
  | error halt c => cases halt <;> exact ⟨none, _, rfl⟩

end Parser
end Lox
