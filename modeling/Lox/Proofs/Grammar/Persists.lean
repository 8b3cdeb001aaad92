import Lox.Proofs.Carries
import Lox.Proofs.Grammar.Soundness

/-! Parsing in surroundings. A run that has tokens left and has not met the limit of its nesting knows nothing of what
stands behind those tokens, of what was reported before it, nor of the limit. So with other tokens there, and under a
higher limit, it gives the same, and leaves the same tokens with those others behind them. `Persists x p q` says this
of a parser `p` and of the same one with more room, and there is a rule for each way of putting parsers together. -/

namespace Lox

def ParseError.before (after : List Token) (e : ParseError) : ParseError := ⟨e.place ++ after, e.problem⟩

/-- What is around a run: what was reported before it, and the tokens behind those that it has. -/
structure Surroundings where
  said : Array ParseError
  after : List Token

namespace Cursor

def within (x : Surroundings) (c : Cursor) : Cursor :=
  ⟨c.rest ++ x.after, x.said ++ c.errors.map (·.before x.after)⟩

/-- What a run does to a cursor, whatever becomes of it. -/
structure Advances (c c' : Cursor) : Prop where
  rest : c'.rest <:+ c.rest
  errors : ∀ e ∈ c.errors, e ∈ c'.errors

/-- Whether a run that came here has met neither the limit nor, if something is to stand behind them, the end of the
tokens. -/
structure Clear (x : Surroundings) (c : Cursor) : Prop where
  rest : x.after = [] ∨ c.rest ≠ []
  errors : ∀ e ∈ c.errors, e.problem ≠ .nesting

variable {c c' c'' : Cursor} {x : Surroundings}

theorem Advances.refl (c : Cursor) : c.Advances c := ⟨List.suffix_rfl, fun _ => id⟩

theorem Advances.trans (h : c.Advances c') (h' : c'.Advances c'') : c.Advances c'' :=
  ⟨h'.rest.trans h.rest, fun e he => h'.errors e (h.errors e he)⟩

theorem Clear.back (h : c'.Clear x) (hc : c.Advances c') : c.Clear x where
  rest := h.rest.imp_right fun hne hnil => hne (List.suffix_nil.1 (hnil ▸ hc.rest))
  errors e he := h.errors e (hc.errors e he)

/-- The surroundings of a run that is all there is. -/
theorem within_nothing (c : Cursor) : c.within ⟨#[], []⟩ = c := by
  simp [within, show (ParseError.before [] : ParseError → ParseError) = id from
    funext fun e => by simp [ParseError.before]]

end Cursor

namespace Parser

variable {α β : Type} {x : Surroundings} {p q : Parser α} {f h : α → Parser β} {c : Cursor}

/-- The cursor that a run leaves, however it ends. -/
def ending : EStateM.Result Halt Cursor α → Cursor
  | .ok _ c | .error _ c => c

def Settled (x : Surroundings) : EStateM.Result Halt Cursor α → Prop
  | .ok _ c => c.Clear x
  | .error halt c => halt = .malformed ∧ c.Clear x

/-- What `Persists` says of the runs from one cursor. -/
structure PersistsFrom (x : Surroundings) (p q : Parser α) (c : Cursor) : Prop where
  advances : c.Advances (ending (p c))
  same : Settled x (p c) → q (c.within x) = carried id (Cursor.within x) id (p c)

def Persists (x : Surroundings) (p q : Parser α) : Prop := ∀ c, PersistsFrom x p q c

theorem settled_clear {r : EStateM.Result Halt Cursor α} (hs : Settled x r) : (ending r).Clear x := by
  cases r with
  | ok a c => exact hs
  | error halt c => exact hs.2

theorem PersistsFrom.bind (hp : PersistsFrom x p q c)
    (hf : ∀ a c', p c = .ok a c' → PersistsFrom x (f a) (h a) c') :
    PersistsFrom x (p >>= f) (q >>= h) c := by
  obtain ⟨hadvances, hsame⟩ := hp
  cases hr : p c with
  | ok a c' =>
    obtain ⟨hadvances', hsame'⟩ := hf a c' hr
    rw [hr] at hadvances hsame
    refine ⟨?_, fun hs => ?_⟩
    · rw [bind_of_ok hr]
      exact hadvances.trans hadvances'
    · rw [bind_of_ok hr] at hs ⊢
      rw [bind_of_ok (hsame ((settled_clear hs).back hadvances'))]
      exact hsame' hs
  | error halt c' =>
    rw [hr] at hadvances hsame
    refine ⟨?_, fun hs => ?_⟩
    · rwa [bind_of_error hr]
    · rw [bind_of_error hr] at hs ⊢
      exact bind_of_error (hsame hs) h

theorem Persists.bind (hp : Persists x p q) (hf : ∀ a, Persists x (f a) (h a)) :
    Persists x (p >>= f) (q >>= h) := fun c => (hp c).bind fun a c' _ => hf a c'

theorem persists_pure (a : α) : Persists x (pure a) (pure a) := fun c => ⟨.refl c, fun _ => rfl⟩

theorem persists_malformed : Persists x (throw .malformed : Parser α) (throw .malformed) := fun c =>
  ⟨.refl c, fun _ => rfl⟩

theorem persists_tooDeep (q : Parser α) : Persists x (throw .tooDeep) q := fun c =>
  ⟨.refl c, fun hs => nomatch hs.1⟩

/-- A parser behind which only its result is put together. -/
theorem Persists.last {f : α → β} (hp : Persists x p q) :
    Persists x (p >>= fun a => pure (f a)) (q >>= fun a => pure (f a)) :=
  hp.bind fun a => persists_pure (f a)

theorem Persists.map (f : α → β) (hp : Persists x p q) : Persists x (f <$> p) (f <$> q) := by
  rw [map_eq_pure_bind, map_eq_pure_bind]
  exact hp.last

/-! Steps. At the end of the tokens a look ahead is no use. -/

theorem PersistsFrom.place {f h : List Token → Parser α}
    (hf : PersistsFrom x (f c.rest) (h (c.rest ++ x.after)) c) :
    PersistsFrom x (place >>= f) (place >>= h) c := ⟨hf.advances, hf.same⟩

/-- The place is the only thing that a parser learns of what is behind. -/
theorem persists_place {f h : List Token → Parser α} (hf : ∀ ts, Persists x (f ts) (h (ts ++ x.after))) :
    Persists x (place >>= f) (place >>= h) := fun c => (hf c.rest c).place

theorem persists_nextIs (kind : TokenKind) : Persists x (nextIs kind) (nextIs kind) := by
  refine fun c => ⟨.refl c, fun hs => ?_⟩
  rcases c with ⟨_ | ⟨t, ts⟩, errors⟩
  · have hafter : x.after = [] := hs.rest.resolve_right (absurd rfl)
    simp [nextIs, Cursor.within, hafter, carried]
  · rfl

theorem persists_atEnd : Persists x atEnd atEnd := by
  refine fun c => ⟨.refl c, fun hs => ?_⟩
  rcases c with ⟨_ | ⟨t, ts⟩, errors⟩
  · have hafter : x.after = [] := hs.rest.resolve_right (absurd rfl)
    simp [atEnd, Cursor.within, hafter, carried]
  · rfl

theorem persists_report (place : List Token) (problem : ParseProblem) :
    Persists x (report place problem) (report (place ++ x.after) problem) := fun c =>
  ⟨⟨List.suffix_rfl, fun e he => Array.mem_push_of_mem _ he⟩, fun _ => by
    simp [report, carried, Cursor.within, ParseError.before]⟩

theorem persists_fail (problem : ParseProblem) : Persists x (fail problem : Parser α) (fail problem) :=
  persists_place fun ts => (persists_report ts problem).bind fun _ => persists_malformed

theorem persists_accept (kinds : List TokenKind) : Persists x (accept kinds) (accept kinds) := by
  rintro ⟨_ | ⟨t, ts⟩, errors⟩
  · refine ⟨.refl _, fun hs => ?_⟩
    have hafter : x.after = [] := hs.rest.resolve_right (absurd rfl)
    simp [accept, Cursor.within, hafter, carried]
  · by_cases ht : t.kind ∈ kinds
    · refine ⟨?_, fun _ => ?_⟩
      · simp only [ending, accept, if_pos ht]
        exact ⟨List.suffix_cons t ts, fun _ => id⟩
      · simp [accept, Cursor.within, ht, carried]
    · refine ⟨?_, fun _ => ?_⟩
      · simp only [ending, accept, if_neg ht]
        exact .refl _
      · simp [accept, Cursor.within, ht, carried]

/-! Runs that take a token -/

/-- A parser that persists and takes one of the tokens there are, if it gives a result of which `S` holds. -/
structure Consumes (x : Surroundings) (S : α → Prop) (p q : Parser α) : Prop where
  persists : Persists x p q
  takes : ∀ c a c', c.rest ≠ [] → p c = .ok a c' → S a → c'.rest.length < c.rest.length

variable {S : α → Prop} {T : β → Prop}

theorem Persists.length_le (hp : Persists x p q) {a : α} {c' : Cursor} (hr : p c = .ok a c') :
    c'.rest.length ≤ c.rest.length := by
  have hrest := (hp c).advances.rest.length_le
  rwa [hr] at hrest

theorem Consumes.bind (hp : Consumes x (fun _ => True) p q) (hf : ∀ a, Persists x (f a) (h a)) :
    Consumes x T (p >>= f) (q >>= h) where
  persists := hp.persists.bind hf
  takes c b c'' hne hr _ := by
    cases hr' : p c with
    | ok a c' =>
      rw [bind_of_ok hr'] at hr
      exact Nat.lt_of_le_of_lt ((hf a).length_le hr) (hp.takes c a c' hne hr' trivial)
    | error halt c' =>
      rw [bind_of_error hr'] at hr
      nomatch hr

/-- What takes a token if the next one is not among `kinds`, and else need not, as that one is taken. -/
theorem consumes_accept {kinds : List TokenKind} {f h : Option Token → Parser β}
    (hsome : ∀ t, Persists x (f (some t)) (h (some t))) (hnone : Consumes x T (f none) (h none)) :
    Consumes x T (accept kinds >>= f) (accept kinds >>= h) where
  persists := (persists_accept kinds).bind fun o => by
    cases o with
    | none => exact hnone.persists
    | some t => exact hsome t
  takes c b c' hne hr hb := by
    change EStateM.bind (accept kinds) f c = _ at hr
    unfold EStateM.bind accept at hr
    rcases c with ⟨_ | ⟨t, ts⟩, errors⟩
    · exact absurd rfl hne
    · by_cases ht : t.kind ∈ kinds
      · simp only [if_pos ht] at hr
        exact Nat.lt_succ_of_le ((hsome t).length_le hr)
      · simp only [if_neg ht] at hr
        exact hnone.takes _ b c' hne hr hb

theorem consumes_none : Consumes x (fun o : Option α => o.isSome) (pure none) (pure none) :=
  ⟨persists_pure none, fun _ _ _ _ hr hs => by cases hr; nomatch hs⟩

theorem consumes_fail (problem : ParseProblem) : Consumes x S (fail problem) (fail problem) :=
  ⟨persists_fail problem, fun _ _ _ _ hr => nomatch hr⟩

theorem consumes_expect (kind : TokenKind) (problem : ParseProblem) :
    Consumes x (fun _ => True) (expect kind problem) (expect kind problem) :=
  consumes_accept persists_pure (consumes_fail problem)

theorem Consumes.map (f : α → β) (hp : Consumes x (fun _ => True) p q) :
    Consumes x T (f <$> p) (f <$> q) := by
  rw [map_eq_pure_bind, map_eq_pure_bind]
  exact hp.bind fun a => persists_pure (f a)

/-! Combinations -/

section Loops

variable {step step' : Parser (Option α)} (hstep : Consumes x (fun o => o.isSome) step step')

include hstep

/-- The tokens bound the turns of a loop, so with more of them it might turn more often. But each turn takes one, and
at the end of the tokens nothing is said. -/
theorem persists_collectWithin (left : List Token) : ∀ c : Cursor, c.rest.length ≤ left.length →
    PersistsFrom x (collectWithin step left) (collectWithin step' (left ++ x.after)) c := by
  induction left with
  | nil =>
    refine fun c hlen => ⟨.refl c, fun hs => ?_⟩
    have hafter : x.after = [] :=
      hs.rest.resolve_right (absurd (List.eq_nil_of_length_eq_zero (Nat.le_zero.1 hlen)))
    rw [hafter]
    rfl
  | cons t left ih =>
    refine fun c hlen => (hstep.persists c).bind fun o c' hr => ?_
    cases o with
    | none => exact persists_pure [] c'
    | some a =>
      have hleft : c'.rest.length ≤ left.length := by
        by_cases hne : c.rest = []
        · have hle := hstep.persists.length_le hr
          rw [hne] at hle
          exact Nat.le_trans hle (Nat.zero_le _)
        · exact Nat.le_of_lt_succ (Nat.lt_of_lt_of_le (hstep.takes c (some a) c' hne hr rfl) hlen)
      exact (ih c' hleft).bind fun as c'' _ => persists_pure (a :: as) c''

theorem persists_collect : Persists x (collect step) (collect step') := by
  refine hstep.persists.bind fun o => ?_
  cases o with
  | none => exact persists_pure []
  | some a =>
    exact fun c => .place ((persists_collectWithin hstep c.rest c (Nat.le_refl _)).bind
      fun as c' _ => persists_pure (a :: as) c')

end Loops

theorem resumeAfter_append {last : Token} {ts : List Token} (hts : resumeAfter last ts ≠ []) (after : List Token) :
    resumeAfter last (ts ++ after) = resumeAfter last ts ++ after := by
  induction ts generalizing last with
  | nil => exact absurd rfl hts
  | cons t ts ih =>
    unfold resumeAfter at hts
    rw [List.cons_append, resumeAfter, resumeAfter]
    split
    · rfl
    · next hstop =>
      rw [if_neg hstop] at hts
      exact ih hts

theorem resume_append {ts after : List Token} (hts : after = [] ∨ resume ts ≠ []) :
    resume (ts ++ after) = resume ts ++ after := by
  rcases hts with rfl | hts
  · rw [List.append_nil, List.append_nil]
  · cases ts with
    | nil => exact absurd rfl hts
    | cons t ts => exact resumeAfter_append hts after

theorem length_resume_lt {c c' : Cursor} (hne : c.rest ≠ []) (hc : c.Advances c') :
    (resume c'.rest).length < c.rest.length := by
  have hle := hc.rest.length_le
  have hresume := (resume_suffix c'.rest).length_le
  have hpos := List.length_pos_iff.2 hne
  rw [List.length_tail] at hresume
  omega

theorem advances_resume (c : Cursor) : c.Advances { c with rest := resume c.rest } :=
  ⟨(resume_suffix c.rest).trans (List.tail_suffix c.rest), fun _ => id⟩

section Recovery

variable {c' : Cursor} {a : α}

theorem recovering_of_ok (hr : p c = .ok a c') : recovering p c = .ok (some a) c' := by
  unfold recovering
  rw [hr]

theorem recovering_of_malformed (hr : p c = .error .malformed c') :
    recovering p c = .ok none { c' with rest := resume c'.rest } := by
  unfold recovering
  rw [hr]

theorem recovering_of_tooDeep (hr : p c = .error .tooDeep c') : recovering p c = .error .tooDeep c' := by
  unfold recovering
  rw [hr]

theorem limiting_of_ok {p : Parser (Option α)} {o : Option α} (hr : p c = .ok o c') : limiting p c = .ok o c' := by
  unfold limiting
  rw [hr]

theorem limiting_of_malformed {p : Parser (Option α)} (hr : p c = .error .malformed c') :
    limiting p c = .error .malformed c' := by
  unfold limiting
  rw [hr]

theorem limiting_of_tooDeep {p : Parser (Option α)} (hr : p c = .error .tooDeep c') :
    limiting p c = .ok none ⟨resume c'.rest, c'.errors.push ⟨c'.rest, .nesting⟩⟩ := by
  unfold limiting
  rw [hr]

end Recovery

theorem Persists.recovering (hp : Persists x p q) : Persists x (recovering p) (recovering q) := by
  intro c
  obtain ⟨hadvances, hsame⟩ := hp c
  cases hr : p c with
  | ok a c' =>
    rw [hr] at hadvances hsame
    refine ⟨?_, fun hs => ?_⟩
    · rwa [recovering_of_ok hr]
    · rw [recovering_of_ok hr] at hs ⊢
      exact recovering_of_ok (hsame hs)
  | error halt c' =>
    rw [hr] at hadvances hsame
    cases halt with
    | malformed =>
      refine ⟨?_, fun hs => ?_⟩
      · rw [recovering_of_malformed hr]
        exact hadvances.trans (advances_resume c')
      · rw [recovering_of_malformed hr] at hs ⊢
        rw [recovering_of_malformed (hsame ⟨rfl, hs.back (advances_resume c')⟩)]
        simp only [Cursor.within, resume_append hs.rest, carried, id]
    | tooDeep =>
      refine ⟨?_, fun hs => ?_⟩
      · rwa [recovering_of_tooDeep hr]
      · rw [recovering_of_tooDeep hr] at hs
        exact nomatch hs.1

/-- A run that is nested too deeply says so, so nothing is said of it here. -/
theorem Persists.limiting {p q : Parser (Option α)} (hp : Persists x p q) :
    Persists x (limiting p) (limiting q) := by
  intro c
  obtain ⟨hadvances, hsame⟩ := hp c
  cases hr : p c with
  | ok a c' =>
    rw [hr] at hadvances hsame
    refine ⟨?_, fun hs => ?_⟩
    · rwa [limiting_of_ok hr]
    · rw [limiting_of_ok hr] at hs ⊢
      exact limiting_of_ok (hsame hs)
  | error halt c' =>
    rw [hr] at hadvances hsame
    cases halt with
    | malformed =>
      refine ⟨?_, fun hs => ?_⟩
      · rwa [limiting_of_malformed hr]
      · rw [limiting_of_malformed hr] at hs ⊢
        exact limiting_of_malformed (hsame hs)
    | tooDeep =>
      refine ⟨?_, fun hs => ?_⟩
      · rw [limiting_of_tooDeep hr]
        exact (hadvances.trans (advances_resume c')).trans
          ⟨List.suffix_rfl, fun e he => Array.mem_push_of_mem _ he⟩
      · rw [limiting_of_tooDeep hr] at hs
        exact absurd rfl (hs.errors _ Array.mem_push_self)

/-- What is dropped behind a malformed declaration is something, if anything is there. -/
theorem Consumes.recovering (hp : Consumes x (fun _ => True) p q) :
    Consumes x (fun _ => True) (recovering p) (recovering q) where
  persists := hp.persists.recovering
  takes c o c'' hne hr _ := by
    have hadvances := (hp.persists c).advances
    cases hr' : p c with
    | ok a c' =>
      cases (recovering_of_ok hr').symm.trans hr
      exact hp.takes c a _ hne hr' trivial
    | error halt c' =>
      rw [hr'] at hadvances
      cases halt with
      | malformed =>
        cases (recovering_of_malformed hr').symm.trans hr
        exact length_resume_lt hne hadvances
      | tooDeep => exact nomatch (recovering_of_tooDeep hr').symm.trans hr

theorem Consumes.limiting {p q : Parser (Option α)} (hp : Consumes x (fun _ => True) p q) :
    Consumes x (fun _ => True) (limiting p) (limiting q) where
  persists := hp.persists.limiting
  takes c o c'' hne hr _ := by
    have hadvances := (hp.persists c).advances
    cases hr' : p c with
    | ok a c' =>
      cases (limiting_of_ok hr').symm.trans hr
      exact hp.takes c _ _ hne hr' trivial
    | error halt c' =>
      rw [hr'] at hadvances
      cases halt with
      | malformed => exact nomatch (limiting_of_malformed hr').symm.trans hr
      | tooDeep =>
        cases (limiting_of_tooDeep hr').symm.trans hr
        exact length_resume_lt hne hadvances

theorem consumes_behind (kinds : List TokenKind) (hp : Persists x p q) :
    Consumes x (fun o => o.isSome) (behind kinds p) (behind kinds q) :=
  consumes_accept (fun _ => hp.last) consumes_none

theorem persists_collect_behind (kinds : List TokenKind) (hp : Persists x p q) :
    Persists x (collect (behind kinds p)) (collect (behind kinds q)) :=
  persists_collect (consumes_behind kinds hp)

theorem persists_unlessAt {stop : Parser Bool} (hstop : Persists x stop stop) (hp : Persists x p q) :
    Persists x (unlessAt stop p) (unlessAt stop q) := by
  refine hstop.bind fun b => ?_
  cases b with
  | true => exact persists_pure none
  | false => exact hp.map some

theorem consumes_unlessAt {stop : Parser Bool} (hstop : Persists x stop stop)
    (hstays : ∀ c, ∃ b, stop c = .ok b c) (hp : Consumes x (fun _ => True) p q) :
    Consumes x (fun o => o.isSome) (unlessAt stop p) (unlessAt stop q) where
  persists := persists_unlessAt hstop hp.persists
  takes c o c' hne hr ho := by
    obtain ⟨b, hb⟩ := hstays c
    unfold unlessAt at hr
    rw [bind_of_ok hb] at hr
    cases b with
    | true => exact (consumes_none (x := x)).takes c o c' hne hr ho
    | false => exact (hp.map (T := fun o => o.isSome) some).takes c o c' hne hr ho

theorem persists_commaSeparated (hp : Persists x p q) : Persists x (commaSeparated p) (commaSeparated q) :=
  hp.bind fun _ => (persists_collect_behind [.comma] hp).last

theorem persists_checkLength (items : List α) (problem : ParseProblem) :
    Persists x (checkLength items problem) (checkLength items problem) := by
  unfold checkLength
  split
  · exact persists_place fun ts => persists_report ts problem
  · exact persists_pure ()

theorem persists_listed (hp : Persists x p q) (problem : ParseProblem) :
    Persists x (listed p problem) (listed q problem) :=
  (persists_unlessAt (persists_nextIs .rightParen) (persists_commaSeparated hp)).bind fun _ =>
    (persists_checkLength _ problem).last

theorem persists_expect (kind : TokenKind) (problem : ParseProblem) :
    Persists x (expect kind problem) (expect kind problem) := (consumes_expect kind problem).persists

theorem persists_untilBrace {p q : Parser (Option α)} (hp : Consumes x (fun _ => True) p q) :
    Persists x (untilBrace p) (untilBrace q) := by
  have hstop : Persists x (do return (← nextIs .rightBrace) || (← atEnd))
      (do return (← nextIs .rightBrace) || (← atEnd)) :=
    (persists_nextIs .rightBrace).bind fun _ => persists_atEnd.last
  exact (persists_collect (consumes_unlessAt hstop (fun _ => ⟨_, rfl⟩) hp)).last

/-! Expressions -/

section Expressions

variable {e e' : Parser Expr}

theorem consumes_levels (he : Consumes x (fun _ => True) e e') (levels : List (List TokenKind)) :
    Consumes x (fun _ => True) (levels.foldr leftAssoc e) (levels.foldr leftAssoc e') := by
  induction levels with
  | nil => exact he
  | cons kinds levels ih => exact ih.bind fun _ => (persists_collect_behind kinds ih.persists).last

theorem consumes_primary (he : Persists x e e') :
    Consumes x (fun _ => True) (primary e) (primary e') := by
  refine consumes_accept (fun t => ?_) (consumes_fail .expression)
  dsimp only
  split
  case h_6 => exact he.bind fun _ => (persists_expect .rightParen .groupingEnd).last
  all_goals exact persists_pure _

theorem consumes_suffix (he : Persists x e e') :
    Consumes x (fun o => o.isSome) (suffix e) (suffix e') :=
  consumes_accept
    (fun _ => (persists_listed he .tooManyArguments).bind fun _ => (persists_expect .rightParen .argumentsEnd).last)
    (consumes_accept (fun _ => (persists_expect .identifier .propertyName).last) consumes_none)

theorem consumes_suffixed (he : Persists x e e') :
    Consumes x (fun _ => True) (suffixed e) (suffixed e') :=
  (consumes_primary he).bind fun _ => (persists_collect (consumes_suffix he)).last

theorem consumes_tooDeep (q : Parser α) : Consumes x S (throw .tooDeep) q :=
  ⟨persists_tooDeep q, fun _ _ _ _ hr => nomatch hr⟩

theorem consumes_expressions : ∀ {n n' : Nat}, n ≤ n' →
    Consumes x (fun _ => True) (expression n) (expression n') ∧
      Consumes x (fun _ => True) (unary n) (unary n')
  | 0, _, _ => ⟨consumes_tooDeep _, consumes_tooDeep _⟩
  | n + 1, n' + 1, hn => by
    obtain ⟨he, hu⟩ := consumes_expressions (Nat.le_of_succ_le_succ hn)
    constructor
    · unfold expression
      refine (consumes_levels hu binaryLevels).bind fun target => persists_place fun ts =>
        (persists_accept [.equal]).bind fun o => ?_
      cases o with
      | none => exact persists_pure target
      | some _ =>
        refine he.persists.bind fun value => ?_
        cases assignment? target value with
        | some e => exact persists_pure e
        | none => exact (persists_report ts .assignmentTarget).last
    · unfold unary
      exact consumes_accept (fun _ => hu.persists.last) (consumes_suffixed he.persists)

end Expressions

/-! Statements -/

section Statements

variable {e e' : Parser Expr} {s s' : Parser Stmt} {d d' : Parser (Option Stmt)}

theorem consumes_expressionStatement (he : Consumes x (fun _ => True) e e') :
    Consumes x (fun _ => True) (expressionStatement e) (expressionStatement e') :=
  he.bind fun _ => (persists_expect .semicolon .expressionEnd).last

theorem persists_varDeclaration (he : Persists x e e') :
    Persists x (varDeclaration e) (varDeclaration e') :=
  (persists_expect .identifier .variableName).bind fun _ => (consumes_behind [.equal] he).persists.bind fun _ =>
    (persists_expect .semicolon .variableEnd).last

theorem persists_printStatement (he : Persists x e e') :
    Persists x (printStatement e) (printStatement e') :=
  he.bind fun _ => (persists_expect .semicolon .printEnd).last

theorem persists_returnStatement (keyword : Token) (he : Persists x e e') :
    Persists x (returnStatement keyword e) (returnStatement keyword e') :=
  (persists_unlessAt (persists_nextIs .semicolon) he).bind fun _ => (persists_expect .semicolon .returnEnd).last

theorem persists_whileStatement (he : Persists x e e') (hs : Persists x s s') :
    Persists x (whileStatement e s) (whileStatement e' s') :=
  (persists_expect .leftParen .whileParen).bind fun _ => he.bind fun _ =>
    (persists_expect .rightParen .whileEnd).bind fun _ => hs.last

theorem persists_ifStatement (he : Persists x e e') (hs : Persists x s s') :
    Persists x (ifStatement e s) (ifStatement e' s') :=
  (persists_expect .leftParen .ifParen).bind fun _ => he.bind fun _ =>
    (persists_expect .rightParen .ifEnd).bind fun _ => hs.bind fun _ => (consumes_behind [.kwElse] hs).persists.last

theorem persists_loopStart (he : Consumes x (fun _ => True) e e') :
    Persists x (loopStart e) (loopStart e') := by
  refine (persists_accept [.semicolon, .kwVar]).bind fun o => ?_
  cases o with
  | none => exact (consumes_expressionStatement he).persists.map some
  | some t =>
    dsimp only
    split
    · exact (persists_varDeclaration he.persists).map some
    · exact persists_pure none

theorem persists_forStatement (he : Consumes x (fun _ => True) e e') (hs : Persists x s s') :
    Persists x (forStatement e s) (forStatement e' s') :=
  (persists_expect .leftParen .forParen).bind fun _ => (persists_loopStart he).bind fun _ =>
    (persists_unlessAt (persists_nextIs .semicolon) he.persists).bind fun _ =>
      (persists_expect .semicolon .forCondition).bind fun _ =>
        (persists_unlessAt (persists_nextIs .rightParen) he.persists).bind fun _ =>
          (persists_expect .rightParen .forEnd).bind fun _ => hs.last

theorem persists_block (hd : Consumes x (fun _ => True) d d') : Persists x (block d) (block d') :=
  (persists_untilBrace hd).bind fun _ => (persists_expect .rightBrace .blockEnd).last

theorem consumes_functionDeclaration (sort : FunctionSort) (hd : Consumes x (fun _ => True) d d') :
    Consumes x (fun _ => True) (functionDeclaration sort d) (functionDeclaration sort d') :=
  (consumes_expect .identifier (.functionName sort)).bind fun _ =>
    (persists_expect .leftParen (.functionParen sort)).bind fun _ =>
      (persists_listed (persists_expect .identifier .parameterName) .tooManyParameters).bind fun _ =>
        (persists_expect .rightParen .parametersEnd).bind fun _ =>
          (persists_expect .leftBrace (.functionBody sort)).bind fun _ => (persists_block hd).last

theorem persists_classDeclaration (hd : Consumes x (fun _ => True) d d') :
    Persists x (classDeclaration d) (classDeclaration d') :=
  (persists_expect .identifier .className).bind fun _ => (persists_expect .leftBrace .classBody).bind fun _ =>
    (persists_untilBrace ((consumes_functionDeclaration .method hd).map some)).bind fun _ =>
      (persists_expect .rightBrace .classEnd).last

/-- A declaration, without recovery from a malformed one. -/
def rawDeclaration (n : Nat) : Parser Stmt := do
  match ← accept [.kwClass, .kwFun, .kwVar] with
  | none => statement n
  | some t =>
    match t.kind with
    | .kwClass => classDeclaration (declaration n)
    | .kwFun => functionDeclaration .function (declaration n)
    | _ => varDeclaration (expression n)

theorem declaration_succ (n : Nat) : declaration (n + 1) = recovering (rawDeclaration n) := rfl

theorem consumes_rawDeclaration {n n' : Nat}
    (he : Persists x (expression n) (expression n'))
    (hd : Consumes x (fun _ => True) (declaration n) (declaration n'))
    (hs : Consumes x (fun _ => True) (statement n) (statement n')) :
    Consumes x (fun _ => True) (rawDeclaration n) (rawDeclaration n') := by
  refine consumes_accept (fun t => ?_) hs
  dsimp only
  split
  · exact persists_classDeclaration hd
  · exact (consumes_functionDeclaration .function hd).persists
  · exact persists_varDeclaration he

theorem consumes_statements : ∀ {n n' : Nat}, n ≤ n' →
    Consumes x (fun _ => True) (declaration n) (declaration n') ∧
      Consumes x (fun _ => True) (statement n) (statement n')
  | 0, _, _ => ⟨consumes_tooDeep _, consumes_tooDeep _⟩
  | n + 1, n' + 1, hn => by
    obtain ⟨hd, hs⟩ := consumes_statements (Nat.le_of_succ_le_succ hn)
    have he := (consumes_expressions (x := x) (Nat.le_of_succ_le_succ hn)).1
    refine ⟨(consumes_rawDeclaration he.persists hd hs).recovering, ?_⟩
    unfold statement
    refine consumes_accept (fun t => ?_) (consumes_expressionStatement he)
    dsimp only
    split
    · exact persists_forStatement he hs.persists
    · exact persists_ifStatement he.persists hs.persists
    · exact persists_printStatement he.persists
    · exact persists_returnStatement t he.persists
    · exact persists_whileStatement he.persists hs.persists
    · exact (persists_block hd).last

theorem persists_program {n n' : Nat} (hn : n ≤ n') : Persists x (program n) (program n') :=
  (persists_collect (consumes_unlessAt persists_atEnd (fun _ => ⟨_, rfl⟩) (consumes_statements hn).1.limiting)).last

end Statements

end Parser

/-- What is parsed without meeting the limit is parsed alike under every higher one. -/
theorem Program.ofTokens_deepens {n n' : Nat} (hn : n ≤ n') {ts : List Token}
    (h : ∀ e ∈ (ofTokens n ts).errors, e.problem ≠ .nesting) : ofTokens n' ts = ofTokens n ts := by
  have hsame := (Parser.persists_program (x := ⟨#[], []⟩) hn ⟨ts, #[]⟩).same
  rw [Cursor.within_nothing] at hsame
  obtain ⟨statements, c, hr⟩ := Parser.answers_program n ⟨ts, #[]⟩
  unfold ofTokens at h ⊢
  rw [hr] at h hsame
  rw [hr, hsame ⟨.inl rfl, by simpa using h⟩, carried, Cursor.within_nothing, id]

end Lox
