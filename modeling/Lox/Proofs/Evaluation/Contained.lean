import Lox.Proofs.Carries
import Lox.Proofs.Evaluation.Operators

/-! Nesting that has room. There are two ways to the limit: a tree that is nested more deeply, and calls in calls. A run
is broken off for the first only. What is exhausted in a call is a failure of that call, so a tree that has room
outside the bodies of its functions never breaks off a run, whatever it calls. -/

namespace Lox

/-- What an interrupt of a call is outside of it: the call at `paren` fails over an exhaustion, and hands on the rest. -/
def Interrupt.outside (paren : Token) : Interrupt → Interrupt
  | tooDeep => failed ⟨paren, .stackOverflow⟩
  | i => i

/-- Whether an expression is nested no more than `depth` deep. -/
def Expr.Fits : (depth : Nat) → Expr → Prop
  | 0, _ => False
  | depth + 1, e =>
    match e with
    | .literal _ | .variable _ | .this _ | .misplaced _ | .unknown _ => True
    | .grouping inner => inner.Fits depth
    | .unary _ right => right.Fits depth
    | .binary left _ right => left.Fits depth ∧ right.Fits depth
    | .assign _ value => value.Fits depth
    | .get object _ => object.Fits depth
    | .set object _ value => object.Fits depth ∧ value.Fits depth
    | .call callee _ arguments => callee.Fits depth ∧ ∀ a ∈ arguments, a.Fits depth

theorem Expr.Fits.succ : ∀ {depth : Nat} {e : Expr}, e.Fits depth → e.Fits (depth + 1)
  | depth + 1, e, h => by
    have ih {e : Expr} : e.Fits depth → e.Fits (depth + 1) := succ
    cases e with
    | literal | «variable» | this | misplaced | unknown => trivial
    | grouping | unary | assign | get => exact ih h
    | binary | set => exact ⟨ih h.1, ih h.2⟩
    | call => exact ⟨ih h.1, fun a ha => ih (h.2 a ha)⟩

/-- Whether a statement is nested no more than `depth` deep, outside the bodies of the functions that it declares. -/
def Stmt.Fits : (depth : Nat) → Stmt → Prop
  | 0, _ => False
  | depth + 1, s =>
    match s with
    | .function .. | .class .. | .misplaced _ | .unknown _ => True
    | .expression inner => inner.Fits depth
    | .print inner => inner.Fits depth
    | .var _ initializer => ∀ e ∈ initializer, e.Fits depth
    | .return _ value => ∀ e ∈ value, e.Fits depth
    | .block statements => ∀ s ∈ statements, s.Fits depth
    | .branch condition whenTrue whenFalse =>
      condition.Fits depth ∧ whenTrue.Fits depth ∧ ∀ s ∈ whenFalse, s.Fits depth
    | .while condition body => condition.Fits depth ∧ body.Fits depth

namespace Run

variable {α β : Type} {p q : Run α} {f : α → Run β}

/-- Whether a run is never broken off at the limit of its nesting. -/
def Contained (p : Run α) : Prop := ∀ m m', p m ≠ .error .tooDeep m'

theorem Contained.bind (hp : Contained p) (hf : ∀ a, Contained (f a)) : Contained (p >>= f) := by
  intro m m' hr
  rcases bind_eq_error hr with hr | ⟨a, m₁, -, hr⟩
  · exact hp m m' hr
  · exact hf a m₁ m' hr

theorem contained_pure (a : α) : Contained (pure a) := nofun

theorem contained_fail (token : Token) (problem : RuntimeProblem) : Contained (fail token problem : Run α) := nofun

theorem contained_stuck (s : Stuck) : Contained (throw (.stuck s) : Run α) := nofun

theorem contained_get : Contained get := nofun

theorem contained_make (operation : Machine → α × Machine) : Contained (make operation) := nofun

theorem contained_modify (operation : Machine → Machine) : Contained (modify operation) := nofun

/-- A run behind which only its result is put together. -/
theorem Contained.last {f : α → β} (hp : Contained p) : Contained (p >>= fun a => pure (f a)) :=
  hp.bind fun a => contained_pure (f a)

theorem Contained.map (f : α → β) (hp : Contained p) : Contained (f <$> p) := by
  rw [map_eq_pure_bind]
  exact hp.last

theorem Contained.ite {c : Prop} [Decidable c] (hp : Contained p) (hq : Contained q) :
    Contained (if c then p else q) := by
  split
  · exact hp
  · exact hq

theorem Contained.mapM {f : α → Run β} {as : List α} (h : ∀ a ∈ as, Contained (f a)) : Contained (as.mapM f) := by
  induction as with
  | nil => exact contained_pure []
  | cons a as ih =>
    obtain ⟨ha, has⟩ := List.forall_mem_cons.1 h
    rw [List.mapM_cons]
    exact ha.bind fun _ => (ih has).last

/-! Operations -/

theorem contained_functionObject (id : FunctionId) : Contained (functionObject id) := by
  intro m m'
  unfold functionObject
  cases m.functions[id]? <;> nofun

theorem contained_instanceObject (id : InstanceId) : Contained (instanceObject id) := by
  intro m m'
  unfold instanceObject
  cases m.instances[id]? <;> nofun

theorem contained_lookUp (name : Token) : Contained (lookUp name) := by
  intro m m'
  unfold lookUp
  cases m.scopes.get? m.current name.lexeme <;> nofun

theorem contained_assign (name : Token) (v : Value) : Contained (assign name v) := by
  intro m m'
  unfold assign
  cases m.scopes.owner? m.current name.lexeme <;> nofun

theorem contained_property (object : InstanceId) (name : Token) : Contained (property object name) := by
  refine (contained_instanceObject object).bind fun o => ?_
  split
  · exact contained_pure _
  · refine contained_get.bind fun m => ?_
    split
    · exact contained_fail name _
    · next f _ =>
      exact (contained_functionObject f).bind fun _ => (contained_make _).bind fun _ => (contained_make _).last

theorem Outright.contained {p : Run Value} (h : Outright p) : Contained p := by
  cases h with
  | gives => exact contained_pure _
  | fails token problem => exact contained_fail token problem
  | stuck s => exact contained_stuck s

theorem contained_methods (ss : List Stmt) (table : Bindings FunctionId) : Contained (methods ss table) := by
  induction ss generalizing table with
  | nil => exact contained_pure table
  | cons s ss ih =>
    unfold methods
    split
    · exact contained_stuck _
    · exact (contained_make _).bind fun _ => ih _

theorem contained_declareClass (name : Token) (ss : List Stmt) : Contained (declareClass name ss) :=
  (contained_modify _).bind fun _ => (contained_methods ss []).bind fun _ => (contained_make _).bind fun _ =>
    contained_assign name _

/-! Statements and calls -/

theorem Contained.inScope (scope : ScopeId) (hp : Contained p) : Contained (inScope scope p) := by
  intro m m' hr
  unfold Run.inScope at hr
  cases h : p { m with current := scope } with
  | ok a m₁ =>
    rw [h] at hr
    nomatch hr
  | error i m₁ =>
    rw [h] at hr
    cases hr
    exact hp _ m₁ h

theorem contained_sequence {execute : Stmt → Run Completion} {ss : List Stmt}
    (h : ∀ s ∈ ss, Contained (execute s)) : Contained (sequence execute ss) := by
  induction ss with
  | nil => exact contained_pure _
  | cons s ss ih =>
    obtain ⟨hs, hss⟩ := List.forall_mem_cons.1 h
    refine hs.bind fun c => ?_
    cases c with
    | normal => exact ih hss
    | returned v => exact contained_pure _

theorem contained_loop {condition : Run Bool} {body : Run Completion} (hc : Contained condition)
    (hb : Contained body) (rounds : Nat) : Contained (loop condition body rounds) := by
  induction rounds with
  | zero => exact nofun
  | succ rounds ih =>
    refine hc.bind fun b => .ite (hb.bind fun c => ?_) (contained_pure _)
    cases c with
    | normal => exact ih
    | returned v => exact contained_pure _

theorem limiting_of_error {m m' : Machine} {i : Interrupt} (hr : p m = .error i m') (paren : Token) :
    limiting paren p m = .error (i.outside paren) m' := by
  unfold limiting
  rw [hr]
  cases i <;> rfl

/-- Whatever becomes of a call, nothing is broken off. -/
theorem contained_limiting (paren : Token) (p : Run α) : Contained (limiting paren p) := by
  intro m m' hr
  cases h : p m with
  | ok a m₁ =>
    unfold limiting at hr
    rw [h] at hr
    nomatch hr
  | error i m₁ =>
    rw [limiting_of_error h] at hr
    cases i <;> nomatch hr

theorem contained_checkedCall (body : Body) (paren : Token) (callee : Value) (arguments : List Value) :
    Contained (checkedCall body paren callee arguments) := by
  refine contained_get.bind fun m => ?_
  split
  · exact contained_fail paren _
  · exact .ite (contained_limiting paren _) (contained_fail paren _)

/-! Trees -/

theorem contained_evaluate (rounds : Nat) : ∀ (depth : Nat) (e : Expr), e.Fits depth →
    Contained (evaluate rounds depth e)
  | depth + 1, e, h => by
    have ih := contained_evaluate rounds depth
    cases e with
    | literal value => exact contained_pure _
    | grouping inner => exact ih inner h
    | unary operator right => exact (ih right h).bind fun v => (outright_unary operator v).contained
    | binary left operator right =>
      refine (ih left h.1).bind fun l => ?_
      split
      · exact .ite (contained_pure l) (ih right h.2)
      · exact .ite (ih right h.2) (contained_pure l)
      · exact (ih right h.2).bind fun r => (outright_binary operator l r).contained
    | «variable» name => exact contained_lookUp name
    | assign name value => exact (ih value h).bind fun v => (contained_assign name v).last
    | get object name =>
      refine (ih object h).bind fun v => ?_
      cases v with
      | «instance» o => exact contained_property o name
      | _ => exact contained_fail name _
    | set object name value =>
      refine (ih object h.1).bind fun v => ?_
      cases v with
      | «instance» o => exact (ih value h.2).bind fun _ => (contained_modify _).last
      | _ => exact contained_fail name _
    | call callee paren arguments =>
      exact (ih callee h.1).bind fun f => (Contained.mapM fun a ha => ih a (h.2 a ha)).bind fun vs =>
        contained_checkedCall _ paren f vs
    | this keyword => exact contained_lookUp keyword
    | misplaced | unknown => exact contained_stuck _

theorem contained_execute (rounds : Nat) : ∀ (depth : Nat) (s : Stmt), s.Fits depth →
    Contained (execute rounds depth s)
  | depth + 1, s, h => by
    have he := contained_evaluate rounds depth
    have ih := contained_execute rounds depth
    cases s with
    | expression inner => exact (he inner h).last
    | print inner => exact (he inner h).bind fun _ => (contained_modify _).last
    | var name initializer =>
      cases initializer with
      | none => exact (contained_pure Value.nil).bind fun _ => (contained_modify _).last
      | some e => exact (he e (h e rfl)).bind fun _ => (contained_modify _).last
    | block statements =>
      exact (contained_make _).bind fun scope => (contained_sequence fun s hs => ih s (h s hs)).inScope scope
    | branch condition whenTrue whenFalse =>
      refine (he condition h.1).bind fun v => .ite (ih whenTrue h.2.1) ?_
      cases whenFalse with
      | none => exact contained_pure _
      | some s => exact ih s (h.2.2 s rfl)
    | «while» condition body => exact contained_loop (.map _ (he condition h.1)) (ih body h.2) rounds
    | function name params body => exact (contained_make _).bind fun _ => (contained_modify _).last
    | «return» keyword value =>
      cases value with
      | none => exact contained_pure _
      | some e => exact (he e (h e rfl)).last
    | «class» name methods => exact (contained_declareClass name methods).last
    | misplaced | unknown => exact contained_stuck _

theorem contained_interpret {limits : Limits} {ss : List Stmt} (h : ∀ s ∈ ss, s.Fits limits.depth) :
    Contained (interpret limits ss) := by
  induction ss with
  | nil => exact contained_pure ()
  | cons s ss ih =>
    obtain ⟨hs, hss⟩ := List.forall_mem_cons.1 h
    exact (contained_execute limits.rounds limits.depth s hs).bind fun _ => ih hss

end Run
end Lox
