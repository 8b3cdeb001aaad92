import Lox.Proofs.Grammar.Breaks

/-! Two runs of a parser on tokens that begin alike. Where the one breaks off among the tokens that are of the same
kinds for both, the other breaks off too, whatever stands behind them: no parser looks past the next token, or at
anything of a token but its kind. `Twins x g p q` says this of the parsers `p` and `q`, of whose results only what
`g` tells is looked at, and there is a rule for each way of putting parsers together. -/

namespace Lox

/-- The tokens behind those that two runs have in common. -/
structure Tails where
  left : List Token
  right : List Token

/-- Whether tokens left of the first run begin before its tail. At the very end both tails have to be empty for that. -/
def Tails.Behind (x : Tails) (ts : List Token) : Prop := x.left.length < ts.length ∨ x.left = [] ∧ x.right = []

def SameKinds (ts us : List Token) : Prop := ts.map Token.kind = us.map Token.kind

theorem SameKinds.length_eq {ts us : List Token} (h : SameKinds ts us) : ts.length = us.length := by
  simpa using congrArg List.length h

theorem Tails.Behind.mono {x : Tails} {ts ts' : List Token} (h : x.Behind ts') (hts : ts' <:+ ts) : x.Behind ts :=
  h.imp_left fun hlt => Nat.lt_of_lt_of_le hlt hts.length_le

namespace Parser

variable {α β γ δ : Type} {x : Tails} {g : α → γ} {k : β → δ} {p q : Parser α} {f h : α → Parser β} {c : Cursor}
  {ts ts' : List Token}

/-- Whether a parser only drops tokens from the front, and breaks off at one of those that it was given. -/
structure Steady (p : Parser α) : Prop where
  parses : ∀ ts, p.Parses ts fun _ after => after <:+ ts
  breaks : ∀ ts, p.Breaks ts (· <:+ ts)

theorem Steady.bind (hp : Steady p) (hf : ∀ a, Steady (f a)) : Steady (p >>= f) where
  parses ts := (hp.parses ts).bind fun a ts' => ((hf a).parses ts').mono fun _ _ h' h => h'.trans h
  breaks ts := Breaks.bind (hp.parses ts) (hp.breaks ts) fun a ts' => ((hf a).breaks ts').mono fun _ h' h => h'.trans h

theorem Steady.exists_append (hp : Steady p) (c : Cursor) : ∃ es, (ending (p c)).errors = c.errors ++ es := by
  obtain ⟨es, hes, -⟩ := hp.breaks c.rest c.errors
  exact ⟨es, hes⟩

theorem Steady.not_mild (hp : Steady p) (h : ¬ Mild c.errors) : ¬ Mild (ending (p c)).errors := by
  obtain ⟨es, hes⟩ := hp.exists_append c
  rw [hes, mild_append]
  exact fun hm => h hm.1

theorem Parses.of_ok {Q : α → List Token → Prop} (hp : Parses p c.rest Q) {a : α} {c' : Cursor} (hr : p c = .ok a c')
    (hm : Mild c'.errors) : Q a c'.rest ∧ Mild c.errors := by
  have hparses := hp c.errors
  rw [show p ⟨c.rest, c.errors⟩ = _ from hr] at hparses
  obtain ⟨es, hes, hrest⟩ := hparses
  rw [hes, mild_append] at hm
  exact ⟨hrest hm.2, hm.1⟩

theorem Steady.place (hp : Steady p) (hm : Mild c.errors) {e : ParseError}
    (he : firstSevere? (ending (p c)).errors = some e) (hne : e.problem ≠ .nesting) : e.place <:+ c.rest := by
  obtain ⟨es, hes, hplace⟩ := hp.breaks c.rest c.errors
  rw [show (ending (p c)).errors = _ from hes, firstSevere?_append_of_mild hm] at he
  exact hplace e he hne

/-- Whether a second run has come as far as a first one that has the result `a` and the tokens `rest` left. -/
def Abreast (x : Tails) (g : α → γ) (a : α) (rest : List Token) (r : EStateM.Result Halt Cursor α) : Prop :=
  ∃ ts us b errors, rest = ts ++ x.left ∧ SameKinds ts us ∧ g a = g b ∧ r = .ok b ⟨us ++ x.right, errors⟩

/-- What `Twins` says of the runs that begin with the tokens `ts` and `us` before the tails. -/
structure TwinsFrom (x : Tails) (g : α → γ) (ts us : List Token) (p q : Parser α) : Prop where
  passes : ∀ errors errors' a c, p ⟨ts ++ x.left, errors⟩ = .ok a c → Mild c.errors → x.Behind c.rest →
    Abreast x g a c.rest (q ⟨us ++ x.right, errors'⟩)
  breaks : ∀ errors errors' e, Mild errors → firstSevere? (ending (p ⟨ts ++ x.left, errors⟩)).errors = some e →
    e.problem ≠ .nesting → x.Behind e.place → ¬ Mild (ending (q ⟨us ++ x.right, errors'⟩)).errors

structure Twins (x : Tails) (g : α → γ) (p q : Parser α) : Prop where
  steady : Steady p
  steady' : Steady q
  runs : ∀ ts us, SameKinds ts us → TwinsFrom x g ts us p q

/-- What has been reported stays reported. -/
theorem not_mild_bind (hf : ∀ a, Steady (f a)) (h : ¬ Mild (ending (p c)).errors) :
    ¬ Mild (ending ((p >>= f) c)).errors := by
  cases hr : p c with
  | error halt c' =>
    rw [hr] at h
    rwa [bind_of_error hr]
  | ok a c' =>
    rw [hr] at h
    rw [bind_of_ok hr]
    exact (hf a).not_mild h

theorem TwinsFrom.bind {us : List Token} (hpq : TwinsFrom x g ts us p q) (hf : ∀ a, Steady (f a))
    (hh : ∀ a, Steady (h a))
    (hfh : ∀ a b errors vs ws errors', p ⟨ts ++ x.left, errors⟩ = .ok a ⟨vs ++ x.left, errors'⟩ → Mild errors' →
      g a = g b → SameKinds vs ws → TwinsFrom x k vs ws (f a) (h b)) :
    TwinsFrom x k ts us (p >>= f) (q >>= h) where
  passes errors errors' b d hr hm hbehind := by
    obtain ⟨a, c, hr, hr'⟩ := bind_eq_ok hr
    obtain ⟨hrest, hmild⟩ := ((hf a).parses c.rest).of_ok hr' hm
    obtain ⟨vs, ws, a', errors'', hvs, hsame, hg, hq⟩ := hpq.passes errors errors' a c hr hmild (hbehind.mono hrest)
    obtain ⟨rest, said⟩ := c
    subst hvs
    rw [bind_of_ok hq]
    exact (hfh a a' errors vs ws said hr hmild hg hsame).passes said errors'' b d hr' hm hbehind
  breaks errors errors' e hm he hne hbehind := by
    -- a problem of the first step is one of the whole
    have hfirst (he : firstSevere? (ending (p ⟨ts ++ x.left, errors⟩)).errors = some e) :
        ¬ Mild (ending ((q >>= h) ⟨us ++ x.right, errors'⟩)).errors :=
      not_mild_bind hh (hpq.breaks errors errors' e hm he hne hbehind)
    cases hr : p ⟨ts ++ x.left, errors⟩ with
    | error halt c =>
      rw [bind_of_error hr] at he
      exact hfirst (by rwa [hr])
    | ok a c =>
      rw [bind_of_ok hr] at he
      by_cases hmild : Mild c.errors
      · have hrest := (hf a).place hmild he hne
        obtain ⟨vs, ws, b, errors'', hvs, hsame, hg, hq⟩ := hpq.passes errors errors' a c hr hmild (hbehind.mono hrest)
        obtain ⟨rest, said⟩ := c
        subst hvs
        rw [bind_of_ok hq]
        exact (hfh a b errors vs ws said hr hmild hg hsame).breaks said errors'' e hmild he hne hbehind
      · obtain ⟨es, hes⟩ := (hf a).exists_append c
        rw [hes, firstSevere?_append_of_not_mild hmild] at he
        exact hfirst (by rwa [hr])

theorem Twins.bind (hp : Twins x g p q) (hf : ∀ a b, g a = g b → Twins x k (f a) (h b)) :
    Twins x k (p >>= f) (q >>= h) where
  steady := hp.steady.bind fun a => (hf a a rfl).steady
  steady' := hp.steady'.bind fun a => (hf a a rfl).steady'
  runs ts us hsame := (hp.runs ts us hsame).bind (fun a => (hf a a rfl).steady) (fun a => (hf a a rfl).steady')
    fun a b _ vs ws _ _ _ hg hsame => (hf a b hg).runs vs ws hsame

/-! Steps -/

/-- Of a result that is not looked at. -/
def unseen (_ : α) : Unit := ()

theorem twins_silent (hp : Steady p) (hq : Steady q) (hsilent : ∀ c, (ending (p c)).errors = c.errors)
    (hpasses : ∀ ts us, SameKinds ts us → ∀ errors errors' a c, p ⟨ts ++ x.left, errors⟩ = .ok a c → x.Behind c.rest →
      Abreast x g a c.rest (q ⟨us ++ x.right, errors'⟩)) : Twins x g p q where
  steady := hp
  steady' := hq
  runs ts us hsame :=
    { passes := fun errors errors' a c hr _ hbehind => hpasses ts us hsame errors errors' a c hr hbehind
      breaks := fun errors errors' e hm he => by
        rw [hsilent, firstSevere?_eq_none.2 hm] at he
        nomatch he }

theorem steady_pure (a : α) : Steady (pure a) := ⟨fun _ => parses_pure a List.suffix_rfl, fun _ => breaks_pure a⟩

theorem twins_pure {a b : α} (hg : g a = g b) : Twins x g (pure a) (pure b) :=
  twins_silent (steady_pure a) (steady_pure b) (fun _ => rfl) fun ts us hsame errors errors' _ _ hr _ => by
    cases hr
    exact ⟨ts, us, b, errors', rfl, hsame, hg, rfl⟩

theorem twins_tooDeep : Twins x g (throw .tooDeep : Parser α) (throw .tooDeep) :=
  have hs : Steady (throw .tooDeep : Parser α) := ⟨fun _ => parses_tooDeep, fun _ => breaks_tooDeep⟩
  twins_silent hs hs (fun _ => rfl) fun _ _ _ _ _ _ _ hr => nomatch hr

/-- What comes next is of the same kind for both, or the end. -/
theorem head_kind_eq {us : List Token} (hsame : SameKinds ts us) (hbehind : x.Behind (ts ++ x.left)) :
    (ts ++ x.left).head?.map Token.kind = (us ++ x.right).head?.map Token.kind := by
  rcases ts with _ | ⟨t, ts⟩ <;> rcases us with _ | ⟨u, us⟩
  · rcases hbehind with hlt | ⟨hl, hr⟩
    · exact absurd hlt (Nat.lt_irrefl _)
    · rw [hl, hr]
  · cases hsame
  · cases hsame
  · simpa using (List.cons.inj hsame).1

theorem twins_nextIs (kind : TokenKind) : Twins x id (nextIs kind) (nextIs kind) :=
  have hs : Steady (nextIs kind) :=
    ⟨fun _ => (parses_nextIs kind).mono fun _ _ h => h ▸ List.suffix_rfl, fun _ => breaks_nextIs kind⟩
  twins_silent hs hs (fun _ => rfl) fun ts us hsame errors errors' a c hr hbehind => by
    cases hr
    refine ⟨ts, us, _, errors', rfl, hsame, ?_, rfl⟩
    have hhead := congrArg (Option.any (· = kind)) (head_kind_eq hsame hbehind)
    simpa [Option.any_map] using hhead

theorem twins_atEnd : Twins x id atEnd atEnd :=
  have hs : Steady atEnd := ⟨fun _ => parses_atEnd.mono fun _ _ h => h.2 ▸ List.suffix_rfl, fun _ => breaks_atEnd⟩
  twins_silent hs hs (fun _ => rfl) fun ts us hsame errors errors' a c hr hbehind => by
    cases hr
    refine ⟨ts, us, _, errors', rfl, hsame, ?_, rfl⟩
    have hhead := head_kind_eq hsame hbehind
    show (ts ++ x.left).isEmpty = (us ++ x.right).isEmpty
    revert hhead
    cases ts ++ x.left <;> cases us ++ x.right <;> simp

theorem twins_accept (kinds : List TokenKind) : Twins x (Option.map Token.kind) (accept kinds) (accept kinds) := by
  have hs : Steady (accept kinds) := by
    refine ⟨fun ts => (parses_accept kinds).mono fun o after h => ?_, fun ts => ?_⟩
    · cases o with
      | none => exact h.2 ▸ List.suffix_rfl
      | some t => exact h.2 ▸ List.suffix_cons t after
    · rw [← bind_pure (accept kinds)]
      exact breaks_accept (fun _ => breaks_pure none) fun _ _ _ => breaks_pure _
  refine twins_silent hs hs (fun c => ?_) fun ts us hsame errors errors' a c hr hbehind => ?_
  · obtain ⟨_ | ⟨t, ts⟩, errors⟩ := c
    · rfl
    · by_cases ht : t.kind ∈ kinds <;> simp [accept, ending, ht]
  · rcases ts with _ | ⟨t, ts⟩ <;> rcases us with _ | ⟨u, us⟩
    · rcases hbehind with hlt | ⟨hl, hright⟩
      · have hrest := (persists_accept (x := ⟨#[], []⟩) kinds ⟨[] ++ x.left, errors⟩).advances.rest.length_le
        rw [hr] at hrest
        exact absurd hlt (Nat.not_lt.2 hrest)
      · rw [hl] at hr
        cases hr
        exact ⟨[], [], none, errors', hl.symm, rfl, rfl, by rw [hright]; rfl⟩
    · cases hsame
    · cases hsame
    · obtain ⟨hkind, hsame'⟩ := List.cons.inj hsame
      by_cases ht : t.kind ∈ kinds
      · have hu : u.kind ∈ kinds := hkind ▸ ht
        simp only [accept, List.cons_append, if_pos ht] at hr
        cases hr
        exact ⟨ts, us, some u, errors', rfl, hsame', congrArg some hkind, by simp [accept, hu]⟩
      · have hu : u.kind ∉ kinds := hkind ▸ ht
        simp only [accept, List.cons_append, if_neg ht] at hr
        cases hr
        exact ⟨t :: ts, u :: us, none, errors', rfl, hsame, rfl, by simp [accept, hu]⟩

/-- Whether a parser leaves all tokens, with a remark at most that is passed over. -/
def Remarks (p : Parser α) : Prop := ∀ c, ∃ a es, p c = .ok a ⟨c.rest, c.errors ++ es⟩ ∧ Mild es

theorem remarks_pure (a : α) : Remarks (pure a) := fun c => ⟨a, #[], by rw [Array.append_empty]; rfl, mild_empty⟩

theorem remarks_report (place : List Token) {problem : ParseProblem} (h : problem.isMild) :
    Remarks (report place problem) := fun c =>
  ⟨(), #[⟨place, problem⟩], by rw [← Array.push_eq_append]; rfl, fun _ he => Array.mem_singleton.1 he ▸ h⟩

theorem Remarks.last {f : α → β} (hp : Remarks p) : Remarks (p >>= fun a => pure (f a)) := by
  intro c
  obtain ⟨a, es, hr, hm⟩ := hp c
  exact ⟨f a, es, bind_of_ok hr _, hm⟩

theorem Remarks.steady (hp : Remarks p) : Steady p where
  parses ts errors := by
    obtain ⟨a, es, hr, hm⟩ := hp ⟨ts, errors⟩
    rw [hr]
    exact ⟨es, rfl, fun _ => List.suffix_rfl⟩
  breaks ts errors := by
    obtain ⟨a, es, hr, hm⟩ := hp ⟨ts, errors⟩
    rw [hr]
    exact ⟨es, rfl, fun e he => nomatch (firstSevere?_eq_none.2 hm).symm.trans he⟩

/-- Remarks need not be the same ones. -/
theorem twins_remarks (hp : Remarks p) (hq : Remarks q) : Twins x unseen p q := by
  refine ⟨hp.steady, hq.steady, fun ts us hsame =>
    ⟨fun errors errors' a c hr _ _ => ?_, fun errors errors' e hm he => ?_⟩⟩
  · obtain ⟨b, es, hr', -⟩ := hp ⟨ts ++ x.left, errors⟩
    obtain ⟨b', es', hq', -⟩ := hq ⟨us ++ x.right, errors'⟩
    cases hr'.symm.trans hr
    exact ⟨ts, us, b', _, rfl, hsame, rfl, hq'⟩
  · obtain ⟨b, es, hr', hmild⟩ := hp ⟨ts ++ x.left, errors⟩
    rw [hr'] at he
    exact nomatch (firstSevere?_eq_none.2 (mild_append.2 ⟨hm, hmild⟩)).symm.trans he

theorem twins_fail {problem : ParseProblem} (h : problem.isMild = false) :
    Twins x g (fail problem : Parser α) (fail problem) := by
  have hs : Steady (fail problem : Parser α) :=
    ⟨fun _ => parses_fail problem h, fun _ => breaks_fail problem List.suffix_rfl⟩
  refine ⟨hs, hs, fun ts us _ => ⟨fun _ _ _ _ hr => (nomatch hr), fun _ errors' _ _ _ _ _ hm => ?_⟩⟩
  exact absurd (hm ⟨us ++ x.right, problem⟩ Array.mem_push_self) (by simp [h])

/-! Combinations -/

theorem Twins.last {k : β → δ} {f h : α → β} (hp : Twins x g p q) (hfh : ∀ a b, g a = g b → k (f a) = k (h b)) :
    Twins x k (p >>= fun a => pure (f a)) (q >>= fun a => pure (h a)) :=
  hp.bind fun a b hg => twins_pure (hfh a b hg)

theorem TwinsFrom.finish {us : List Token} (hp : TwinsFrom x g ts us p q) (f h : α → β) :
    TwinsFrom x unseen ts us (p >>= fun a => pure (f a)) (q >>= fun a => pure (h a)) :=
  hp.bind (fun a => steady_pure (f a)) (fun b => steady_pure (h b)) fun a b _ vs ws _ _ _ _ hsame =>
    (twins_pure (g := unseen) (a := f a) (b := h b) rfl).runs vs ws hsame

/-- A parser whose result goes into one that is not looked at. -/
theorem Twins.finish {f h : α → β} (hp : Twins x g p q) :
    Twins x unseen (p >>= fun a => pure (f a)) (q >>= fun a => pure (h a)) := hp.last fun _ _ _ => rfl

theorem Twins.map {k : β → δ} {f h : α → β} (hp : Twins x g p q) (hfh : ∀ a b, g a = g b → k (f a) = k (h b)) :
    Twins x k (f <$> p) (h <$> q) := by
  rw [map_eq_pure_bind, map_eq_pure_bind]
  exact hp.last hfh

theorem twins_acceptThen {kinds : List TokenKind} {f h : Option Token → Parser β} (hnone : Twins x k (f none) (h none))
    (hsome : ∀ t u : Token, t.kind = u.kind → Twins x k (f (some t)) (h (some u))) :
    Twins x k (accept kinds >>= f) (accept kinds >>= h) := by
  refine (twins_accept kinds).bind fun o o' ho => ?_
  rcases o with _ | t <;> rcases o' with _ | u
  · exact hnone
  · cases ho
  · cases ho
  · exact hsome t u (Option.some.inj ho)

theorem twins_expect (kind : TokenKind) {problem : ParseProblem} (h : problem.isMild = false) :
    Twins x unseen (expect kind problem) (expect kind problem) :=
  twins_acceptThen (twins_fail h) fun _ _ _ => twins_pure rfl

theorem twins_place {f h : List Token → Parser β} (hf : ∀ ts, Steady (f ts)) (hh : ∀ ts, Steady (h ts))
    (hfh : ∀ ts us, SameKinds ts us → TwinsFrom x k ts us (f (ts ++ x.left)) (h (us ++ x.right))) :
    Twins x k (place >>= f) (place >>= h) where
  steady := ⟨fun ts => ((hf ts).parses ts :), fun ts => ((hf ts).breaks ts :)⟩
  steady' := ⟨fun ts => ((hh ts).parses ts :), fun ts => ((hh ts).breaks ts :)⟩
  runs ts us hsame := ⟨(hfh ts us hsame).passes, (hfh ts us hsame).breaks⟩

/-- A parser that learns of the place, though not in what it takes. -/
theorem twins_anywhere {f h : List Token → Parser β} (hf : ∀ ts us, Twins x k (f ts) (h us)) :
    Twins x k (place >>= f) (place >>= h) :=
  twins_place (fun ts => (hf ts ts).steady) (fun ts => (hf ts ts).steady') fun ts us => (hf _ _).runs ts us

/-- Where there are no tokens in common nothing is said, unless there are none at all. -/
theorem twinsFrom_nil (hp : Steady p) (hx : ¬ (x.left = [] ∧ x.right = [])) (us : List Token) :
    TwinsFrom x g [] us p q where
  passes errors errors' a c hr hm hbehind := by
    obtain ⟨hrest, -⟩ := (hp.parses _).of_ok hr hm
    have hle := hrest.length_le
    rcases hbehind with hlt | hnone
    · exact absurd hlt (Nat.not_lt.2 hle)
    · exact absurd hnone hx
  breaks errors errors' e hm he hne hbehind := by
    have hle := (hp.place hm he hne).length_le
    rcases hbehind with hlt | hnone
    · exact absurd hlt (Nat.not_lt.2 hle)
    · exact absurd hnone hx

section Loops

variable {step step' : Parser (Option α)}

/-- A turn of a loop with the turns behind it. -/
theorem steady_turn {rest : Parser (List α)} (h : Steady rest) :
    ∀ o : Option α, Steady (match o with
      | none => pure []
      | some a => do return a :: (← rest))
  | none => steady_pure []
  | some a => h.bind fun as => steady_pure (a :: as)

theorem steady_collectWithin (hstep : Steady step) (left : List Token) : Steady (collectWithin step left) := by
  induction left with
  | nil => exact steady_pure []
  | cons _ left ih => exact hstep.bind (steady_turn ih)

variable (hstep : Twins x Option.isSome step step')

include hstep

/-- The tokens bound the turns of both loops. Each turn takes one of those in common, so neither is stopped before
the tails, and where these are empty both have as many turns. -/
theorem twinsFrom_collectWithin (htakes : ∀ ts, step.Parses ts fun o after => o.isSome → after.length < ts.length)
    (left : List Token) : ∀ left' ts us : List Token, SameKinds ts us → ts.length ≤ left.length →
      ts.length ≤ left'.length → (x.left = [] ∧ x.right = [] → left.length = left'.length) →
        TwinsFrom x unseen ts us (collectWithin step left) (collectWithin step' left') := by
  induction left with
  | nil =>
    intro left' ts us hsame hleft _ hends
    obtain rfl := List.eq_nil_of_length_eq_zero (Nat.le_zero.1 hleft)
    by_cases hx : x.left = [] ∧ x.right = []
    · obtain rfl := List.eq_nil_of_length_eq_zero (hends hx).symm
      exact (twins_pure (g := unseen) rfl).runs [] us hsame
    · exact twinsFrom_nil (steady_pure []) hx us
  | cons t left ih =>
    intro left' ts us hsame hleft hleft' hends
    cases left' with
    | nil =>
      obtain rfl := List.eq_nil_of_length_eq_zero (Nat.le_zero.1 hleft')
      exact twinsFrom_nil (steady_collectWithin hstep.steady (t :: left)) (fun hx => nomatch hends hx) us
    | cons t' left' =>
      refine (hstep.runs ts us hsame).bind (steady_turn (steady_collectWithin hstep.steady left))
        (steady_turn (steady_collectWithin hstep.steady' left')) fun o o' errors vs ws errors' hr hm ho hsame' => ?_
      rcases o with _ | a <;> rcases o' with _ | a'
      · exact (twins_pure (g := unseen) rfl).runs vs ws hsame'
      · cases ho
      · cases ho
      · have hlt := ((htakes _).of_ok hr hm).1 rfl
        simp only [List.length_append, List.length_cons] at hlt hleft hleft' hends
        have hturns := ih left' vs ws hsame' (by omega) (by omega) fun hx => by have := hends hx; omega
        exact hturns.finish (a :: ·) (a' :: ·)

theorem twins_collect (htakes : ∀ ts, step.Parses ts fun o after => o.isSome → after.length < ts.length) :
    Twins x unseen (collect step) (collect step') := by
  refine hstep.bind fun o o' ho => ?_
  rcases o with _ | a <;> rcases o' with _ | a'
  · exact twins_pure rfl
  · cases ho
  · cases ho
  · refine twins_place (fun ts => (steady_collectWithin hstep.steady ts).bind fun as => steady_pure (a :: as))
      (fun ts => (steady_collectWithin hstep.steady' ts).bind fun as => steady_pure (a' :: as)) fun ts us hsame => ?_
    refine (twinsFrom_collectWithin hstep htakes _ _ ts us hsame ?_ ?_ ?_).finish (a :: ·) (a' :: ·)
    · simp
    · simp [hsame.length_eq]
    · rintro ⟨hl, hr⟩
      simp [hl, hr, hsame.length_eq]

end Loops

/-! Recovery -/

theorem Steady.recovering (hp : Steady p) : Steady (recovering p) :=
  ⟨fun ts => (hp.parses ts).recovering, fun ts => (hp.breaks ts).recovering⟩

theorem Steady.limiting {p : Parser (Option α)} (hp : Steady p) : Steady (limiting p) :=
  ⟨fun ts => (hp.parses ts).limiting, fun ts => (hp.breaks ts).limiting⟩

theorem Steady.not_mild_of_malformed (hp : Steady p) {c' : Cursor} (hr : p c = .error .malformed c') :
    ¬ Mild c'.errors := by
  have hparses := hp.parses c.rest c.errors
  rw [show p ⟨c.rest, c.errors⟩ = _ from hr] at hparses
  obtain ⟨es, hes, hm⟩ := hparses
  rw [hes, mild_append]
  exact fun h => hm rfl h.2

theorem Twins.recovering (hp : Twins x g p q) : Twins x unseen (recovering p) (recovering q) := by
  refine ⟨hp.steady.recovering, hp.steady'.recovering, fun ts us hsame => ⟨fun errors errors' o c hr hm hbehind => ?_,
    fun errors errors' e hm he hne hbehind => ?_⟩⟩
  · cases hrun : p ⟨ts ++ x.left, errors⟩ with
    | ok a c' =>
      cases (recovering_of_ok hrun).symm.trans hr
      obtain ⟨vs, ws, b, errors'', hvs, hsame', -, hq⟩ := (hp.runs ts us hsame).passes _ errors' a c hrun hm hbehind
      exact ⟨vs, ws, some b, errors'', hvs, hsame', rfl, recovering_of_ok hq⟩
    | error halt c' =>
      cases halt with
      | malformed =>
        cases (recovering_of_malformed hrun).symm.trans hr
        have hnot : ¬ Mild c'.errors := hp.steady.not_mild_of_malformed hrun
        exact absurd hm hnot
      | tooDeep => exact nomatch (recovering_of_tooDeep hrun).symm.trans hr
  · rw [errors_recovering] at he ⊢
    exact (hp.runs ts us hsame).breaks errors errors' e hm he hne hbehind

theorem Twins.limiting {p q : Parser (Option α)} {g : Option α → γ} (hp : Twins x g p q) :
    Twins x g (limiting p) (limiting q) := by
  refine ⟨hp.steady.limiting, hp.steady'.limiting, fun ts us hsame => ⟨fun errors errors' o c hr hm hbehind => ?_,
    fun errors errors' e hm he hne hbehind => ?_⟩⟩
  · cases hrun : p ⟨ts ++ x.left, errors⟩ with
    | ok a c' =>
      cases (limiting_of_ok hrun).symm.trans hr
      obtain ⟨vs, ws, b, errors'', hvs, hsame', hg, hq⟩ := (hp.runs ts us hsame).passes _ errors' _ c hrun hm hbehind
      exact ⟨vs, ws, b, errors'', hvs, hsame', hg, limiting_of_ok hq⟩
    | error halt c' =>
      cases halt with
      | malformed => exact nomatch (limiting_of_malformed hrun).symm.trans hr
      | tooDeep =>
        cases (limiting_of_tooDeep hrun).symm.trans hr
        exact absurd (hm _ Array.mem_push_self) Bool.false_ne_true
  · obtain ⟨es, hes, hnesting⟩ := exists_errors_limiting p ⟨ts ++ x.left, errors⟩
    obtain ⟨es', hes', -⟩ := exists_errors_limiting q ⟨us ++ x.right, errors'⟩
    rw [hes] at he
    rw [hes', mild_append]
    have hfirst := firstSevere?_of_append hnesting he hne
    exact fun h => (hp.runs ts us hsame).breaks errors errors' e hm hfirst hne hbehind h.1

/-! Lists -/

/-- A parser that is its own twin. -/
abbrev Twinned (x : Tails) (p : Parser α) : Prop := Twins x unseen p p

theorem parses_takes {kinds : List TokenKind} {f : Option Token → Parser (Option β)} (hsome : ∀ t, Steady (f (some t)))
    (hnone : ∀ ts, (f none).Parses ts fun o after => o.isSome → after.length < ts.length) (ts : List Token) :
    (accept kinds >>= f).Parses ts fun o after => o.isSome → after.length < ts.length := by
  refine (parses_accept kinds).bind fun o ts' => ?_
  cases o with
  | none =>
    refine (hnone ts').mono fun o after h ho => ?_
    obtain ⟨-, rfl⟩ := ho
    exact h
  | some t =>
    refine ((hsome t).parses ts').mono fun o after h ho _ => ?_
    obtain ⟨-, rfl⟩ := ho
    exact Nat.lt_succ_of_le h.length_le

theorem parses_takes_none (ts : List Token) :
    (pure none : Parser (Option α)).Parses ts fun o after => o.isSome → after.length < ts.length :=
  parses_pure none nofun

theorem twins_behind (kinds : List TokenKind) (hp : Twinned x p) :
    Twins x Option.isSome (behind kinds p) (behind kinds p) :=
  twins_acceptThen (twins_pure rfl) fun _ _ _ => hp.last fun _ _ _ => rfl

theorem twinned_collect_behind (kinds : List TokenKind) (hp : Twinned x p) : Twinned x (collect (behind kinds p)) :=
  twins_collect (twins_behind kinds hp)
    (parses_takes (fun _ => hp.steady.bind fun _ => steady_pure _) parses_takes_none)

theorem twins_unlessAt {stop : Parser Bool} (hstop : Twins x id stop stop) (hp : Twinned x p) :
    Twins x Option.isSome (unlessAt stop p) (unlessAt stop p) := by
  refine hstop.bind fun b b' hb => ?_
  obtain rfl : b = b' := hb
  cases b with
  | true => exact twins_pure rfl
  | false => exact hp.map fun _ _ _ => rfl

theorem twinned_commaSeparated (hp : Twinned x p) : Twinned x (commaSeparated p) :=
  hp.bind fun _ _ _ => (twinned_collect_behind [.comma] hp).finish

theorem remarks_checkLength (items : List α) {problem : ParseProblem} (h : problem.isMild) :
    Remarks (checkLength items problem) := by
  unfold checkLength
  split
  · exact fun c => remarks_report c.rest h c
  · exact remarks_pure ()

theorem twinned_listed (hp : Twinned x p) {problem : ParseProblem} (h : problem.isMild) :
    Twinned x (listed p problem) :=
  (twins_unlessAt (twins_nextIs .rightParen) (twinned_commaSeparated hp)).bind fun _ _ _ =>
    (twins_remarks (remarks_checkLength _ h) (remarks_checkLength _ h)).finish

/-! Expressions -/

section Expressions

variable {e : Parser Expr}

theorem twinned_levels (he : Twinned x e) (levels : List (List TokenKind)) : Twinned x (levels.foldr leftAssoc e) := by
  induction levels with
  | nil => exact he
  | cons kinds levels ih => exact ih.bind fun _ _ _ => (twinned_collect_behind kinds ih).finish

variable (he : Twinned x e)

include he

theorem twinned_primary : Twinned x (primary e) := by
  refine twins_acceptThen (twins_fail rfl) fun t u hkind => ?_
  dsimp only
  rw [hkind]
  generalize u.kind = kind
  split
  case h_6 => exact he.bind fun _ _ _ => (twins_expect .rightParen rfl).finish
  all_goals exact twins_pure rfl

theorem twins_suffix : Twins x Option.isSome (suffix e) (suffix e) :=
  twins_acceptThen
    (twins_acceptThen (twins_pure rfl) fun _ _ _ => (twins_expect .identifier rfl).last fun _ _ _ => rfl)
    fun _ _ _ => (twinned_listed he rfl).bind fun _ _ _ => (twins_expect .rightParen rfl).last fun _ _ _ => rfl

theorem parses_takes_suffix (ts : List Token) :
    (suffix e).Parses ts fun o after => o.isSome → after.length < ts.length := by
  refine parses_takes (fun _ => ?_) (fun ts => parses_takes (fun _ => ?_) (fun ts => ?_) ts) ts
  · exact (twinned_listed he rfl).steady.bind fun _ => (twins_expect (x := x) .rightParen rfl).steady.bind fun _ =>
      steady_pure _
  · exact (twins_expect (x := x) .identifier rfl).steady.bind fun _ => steady_pure _
  · exact parses_takes_none ts

theorem twinned_suffixed : Twinned x (suffixed e) :=
  (twinned_primary he).bind fun _ _ _ => (twins_collect (twins_suffix he) (parses_takes_suffix he)).finish

end Expressions

theorem twinned_expressions : ∀ n, Twinned x (expression n) ∧ Twinned x (unary n)
  | 0 => ⟨twins_tooDeep, twins_tooDeep⟩
  | n + 1 => by
    obtain ⟨he, hu⟩ := twinned_expressions n
    constructor
    · unfold expression
      refine (twinned_levels hu binaryLevels).bind fun target target' _ => twins_anywhere fun ts us =>
        twins_acceptThen (twins_pure rfl) fun t u _ => he.bind fun value value' _ => ?_
      -- what is assigned to may be of another sort, but that is a matter for remarks
      refine twins_remarks ?_ ?_
      all_goals
        split
        · exact remarks_pure _
        · exact (remarks_report _ rfl).last
    · unfold unary
      exact twins_acceptThen (twinned_suffixed he) fun _ _ _ => hu.finish

/-! Statements -/

section Statements

variable {e : Parser Expr} {s : Parser Stmt} (he : Twinned x e) (hs : Twinned x s)

include he

theorem twinned_expressionStatement : Twinned x (expressionStatement e) :=
  he.bind fun _ _ _ => (twins_expect .semicolon rfl).finish

theorem twinned_varDeclaration : Twinned x (varDeclaration e) :=
  (twins_expect .identifier rfl).bind fun _ _ _ => (twins_behind [.equal] he).bind fun _ _ _ =>
    (twins_expect .semicolon rfl).finish

theorem twinned_printStatement : Twinned x (printStatement e) :=
  he.bind fun _ _ _ => (twins_expect .semicolon rfl).finish

theorem twins_returnStatement (keyword keyword' : Token) :
    Twins x unseen (returnStatement keyword e) (returnStatement keyword' e) :=
  (twins_unlessAt (twins_nextIs .semicolon) he).bind fun _ _ _ => (twins_expect .semicolon rfl).finish

theorem twinned_loopStart : Twinned x (loopStart e) := by
  refine twins_acceptThen ((twinned_expressionStatement he).map fun _ _ _ => rfl) fun t u hkind => ?_
  dsimp only
  rw [hkind]
  split
  · exact (twinned_varDeclaration he).map fun _ _ _ => rfl
  · exact twins_pure rfl

include hs

theorem twinned_whileStatement : Twinned x (whileStatement e s) :=
  (twins_expect .leftParen rfl).bind fun _ _ _ => he.bind fun _ _ _ => (twins_expect .rightParen rfl).bind fun _ _ _ =>
    hs.finish

theorem twinned_ifStatement : Twinned x (ifStatement e s) :=
  (twins_expect .leftParen rfl).bind fun _ _ _ => he.bind fun _ _ _ => (twins_expect .rightParen rfl).bind fun _ _ _ =>
    hs.bind fun _ _ _ => (twins_behind [.kwElse] hs).finish

theorem twinned_forStatement : Twinned x (forStatement e s) :=
  (twins_expect .leftParen rfl).bind fun _ _ _ => (twinned_loopStart he).bind fun _ _ _ =>
    (twins_unlessAt (twins_nextIs .semicolon) he).bind fun _ _ _ => (twins_expect .semicolon rfl).bind fun _ _ _ =>
      (twins_unlessAt (twins_nextIs .rightParen) he).bind fun _ _ _ => (twins_expect .rightParen rfl).bind fun _ _ _ =>
        hs.finish

end Statements

/-! Blocks and declarations -/

section Blocks

variable {item : Parser (Option α)} {d : Parser (Option Stmt)}

theorem parses_takes_unlessAt {stop : Parser Bool} (hs : ∀ ts, stop.Parses ts fun _ after => after = ts)
    (hlt : ∀ ts, p.Parses ts fun _ after => after.length < ts.length) (ts : List Token) :
    (unlessAt stop p).Parses ts fun o after => o.isSome → after.length < ts.length := by
  refine (parses_unlessAt (T := fun _ => True) ((hs ts).mono fun _ _ h => ⟨h, fun _ => trivial⟩) hlt).mono ?_
  intro o after ho hsome
  cases o with
  | none => cases hsome
  | some a => exact ho

theorem twinned_untilBrace (hp : Twinned x item) (hlt : ∀ ts, item.Parses ts fun _ after => after.length < ts.length) :
    Twinned x (untilBrace item) := by
  have hstop : Twins x id (do return (← nextIs .rightBrace) || (← atEnd))
      (do return (← nextIs .rightBrace) || (← atEnd)) := by
    refine (twins_nextIs .rightBrace).bind fun b b' hb => twins_atEnd.last fun b₁ b₁' hb₁ => ?_
    rw [show b = b' from hb, show b₁ = b₁' from hb₁]
  exact (twins_collect (twins_unlessAt hstop hp) (parses_takes_unlessAt parses_bodyEnd hlt)).finish

variable (hd : Twinned x d) (hlt : ∀ ts, d.Parses ts fun _ after => after.length < ts.length)

include hd hlt

theorem twinned_block : Twinned x (block d) :=
  (twinned_untilBrace hd hlt).bind fun _ _ _ => (twins_expect .rightBrace rfl).finish

theorem twinned_functionDeclaration (sort : FunctionSort) : Twinned x (functionDeclaration sort d) :=
  (twins_expect .identifier rfl).bind fun _ _ _ => (twins_expect .leftParen rfl).bind fun _ _ _ =>
    (twinned_listed (twins_expect .identifier rfl) rfl).bind fun _ _ _ =>
      (twins_expect .rightParen rfl).bind fun _ _ _ => (twins_expect .leftBrace rfl).bind fun _ _ _ =>
        (twinned_block hd hlt).finish

theorem twinned_classDeclaration (hmethod : ∀ ts, Parses (some <$> functionDeclaration .method d) ts fun _ after =>
    after.length < ts.length) : Twinned x (classDeclaration d) :=
  (twins_expect .identifier rfl).bind fun _ _ _ => (twins_expect .leftBrace rfl).bind fun _ _ _ =>
    (twinned_untilBrace ((twinned_functionDeclaration hd hlt .method).map fun _ _ _ => rfl) hmethod).bind fun _ _ _ =>
      (twins_expect .rightBrace rfl).finish

end Blocks

theorem parses_lt {q : Phrase} {n : Nat} (h : q.Accepts p n) (hq : q.nullable = false) (ts : List Token) :
    p.Parses ts fun _ after => after.length < ts.length := (h ts).mono fun _ _ h => h.length_lt hq

theorem twinned_statements : ∀ n, Twinned x (declaration n) ∧ Twinned x (statement n)
  | 0 => ⟨twins_tooDeep, twins_tooDeep⟩
  | n + 1 => by
    obtain ⟨hd, hs⟩ := twinned_statements n
    have he := (twinned_expressions (x := x) n).1
    have hlt := parses_lt (acceptsAll n).declaration rfl
    have hmethod := parses_lt (accepts_functionDeclaration .method (acceptsAll n).declaration) rfl
    constructor
    · unfold declaration
      refine Twins.recovering (twins_acceptThen hs fun t u hkind => ?_)
      dsimp only
      rw [hkind]
      generalize u.kind = kind
      split
      · exact twinned_classDeclaration hd hlt fun ts => (hmethod ts).map
      · exact twinned_functionDeclaration hd hlt .function
      · exact twinned_varDeclaration he
    · unfold statement
      refine twins_acceptThen (twinned_expressionStatement he) fun t u hkind => ?_
      dsimp only
      rw [hkind]
      generalize u.kind = kind
      split
      · exact twinned_forStatement he hs
      · exact twinned_ifStatement he hs
      · exact twinned_printStatement he
      · exact twins_returnStatement he t u
      · exact twinned_whileStatement he hs
      · exact (twinned_block hd hlt).finish

theorem twinned_program (n : Nat) : Twinned x (program n) := by
  have hlt := parses_lt (fun ts => ((acceptsAll n).declaration ts).limiting) rfl
  have hstays (ts : List Token) : atEnd.Parses ts fun _ after => after = ts := parses_atEnd.mono fun _ _ h => h.2
  exact (twins_collect (twins_unlessAt twins_atEnd (twinned_statements n).1.limiting)
    (parses_takes_unlessAt hstays hlt)).finish

end Parser
end Lox
