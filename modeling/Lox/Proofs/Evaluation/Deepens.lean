import Lox.Evaluation

/-! Runs with more room. A run that does not meet the limit of its nesting, neither outside all calls nor in one, does
the same under every higher limit. `Deepens p q` says this of a run and of the one with more room, and there is a rule
for each way of putting runs together. -/

namespace Lox

/-- Whether the limit of the nesting was met, be it outside all calls or in one. -/
def Interrupt.Exhausts : Interrupt → Prop
  | tooDeep => True
  | failed e => e.problem = .stackOverflow
  | _ => False

namespace Run

variable {α β : Type}

def Exhausted (r : EStateM.Result Interrupt Machine α) : Prop := ∃ i m, r = .error i m ∧ i.Exhausts

theorem exhausted_error {i : Interrupt} {m : Machine} :
    Exhausted (.error i m : EStateM.Result Interrupt Machine α) ↔ i.Exhausts := by
  constructor
  · rintro ⟨_, _, ⟨⟩, h⟩
    exact h
  · exact fun h => ⟨i, m, rfl, h⟩

theorem not_exhausted_ok (a : α) (m : Machine) : ¬ Exhausted (.ok a m) := fun ⟨_, _, h, _⟩ => nomatch h

def Deepens (p q : Run α) : Prop := ∀ m, ¬ Exhausted (p m) → q m = p m

variable {p q : Run α} {f g : α → Run β}

theorem Deepens.refl (p : Run α) : Deepens p p := fun _ _ => rfl

theorem deepens_tooDeep (q : Run α) : Deepens (throw .tooDeep) q :=
  fun m h => (h ⟨.tooDeep, m, rfl, trivial⟩).elim

theorem Deepens.bind (hp : Deepens p q) (hf : ∀ a, Deepens (f a) (g a)) : Deepens (p >>= f) (q >>= g) := by
  intro m h
  change ¬ Exhausted (EStateM.bind p f m) at h
  show EStateM.bind q g m = EStateM.bind p f m
  unfold EStateM.bind at h ⊢
  cases hr : p m with
  | ok a m' =>
    rw [hr] at h
    rw [hp m (hr ▸ not_exhausted_ok a m'), hr]
    exact hf a m' h
  | error i m' =>
    -- a run that is exhausted here is exhausted as a whole
    rw [hr, exhausted_error] at h
    rw [hp m (by rwa [hr, exhausted_error]), hr]

theorem Deepens.last {f : α → β} (hp : Deepens p q) :
    Deepens (p >>= fun a => pure (f a)) (q >>= fun a => pure (f a)) := hp.bind fun a => .refl (pure (f a))

theorem Deepens.map (f : α → β) (hp : Deepens p q) : Deepens (f <$> p) (f <$> q) := by
  rw [map_eq_pure_bind, map_eq_pure_bind]
  exact hp.last

theorem Deepens.ite {c : Prop} [Decidable c] {p' q' : Run α} (hp : Deepens p q) (hp' : Deepens p' q') :
    Deepens (if c then p else p') (if c then q else q') := by
  split
  · exact hp
  · exact hp'

theorem Deepens.mapM {f g : α → Run β} (h : ∀ a, Deepens (f a) (g a)) (as : List α) :
    Deepens (as.mapM f) (as.mapM g) := by
  induction as with
  | nil => exact .refl _
  | cons a as ih =>
    rw [List.mapM_cons, List.mapM_cons]
    exact (h a).bind fun _ => ih.last

/-! Statements and calls -/

theorem Deepens.inScope (scope : ScopeId) (hp : Deepens p q) : Deepens (inScope scope p) (inScope scope q) := by
  intro m h
  unfold Run.inScope at h ⊢
  dsimp only at h ⊢
  have hinner : ¬ Exhausted (p { m with current := scope }) := by
    rintro ⟨i, m', hr, hi⟩
    rw [hr] at h
    exact h (exhausted_error.2 hi)
  rw [hp _ hinner]

/-- What is exhausted in a call is not taken up without a word: the call fails over it. -/
theorem Deepens.limiting (paren : Token) (hp : Deepens p q) : Deepens (limiting paren p) (limiting paren q) := by
  intro m h
  unfold Run.limiting at h ⊢
  have hinner : ¬ Exhausted (p m) := by
    rintro ⟨i, m', hr, hi⟩
    rw [hr] at h
    cases i with
    | tooDeep => exact h (exhausted_error.2 rfl)
    | failed e => exact h (exhausted_error.2 hi)
    | _ => exact hi
  rw [hp m hinner]

section Statements

variable {execute execute' : Stmt → Run Completion} (h : ∀ s, Deepens (execute s) (execute' s))

include h

theorem deepens_sequence (ss : List Stmt) : Deepens (sequence execute ss) (sequence execute' ss) := by
  induction ss with
  | nil => exact .refl _
  | cons s ss ih =>
    refine (h s).bind fun c => ?_
    cases c with
    | normal => exact ih
    | returned v => exact .refl _

theorem deepens_block (scope : ScopeId) (ss : List Stmt) :
    Deepens (block execute scope ss) (block execute' scope ss) := (deepens_sequence h ss).inScope scope

end Statements

theorem deepens_loop {condition condition' : Run Bool} {body body' : Run Completion}
    (hc : Deepens condition condition') (hb : Deepens body body') (rounds : Nat) :
    Deepens (loop condition body rounds) (loop condition' body' rounds) := by
  induction rounds with
  | zero => exact .refl _
  | succ rounds ih =>
    refine hc.bind fun b => .ite (hb.bind fun c => ?_) (.refl _)
    cases c with
    | normal => exact ih
    | returned v => exact .refl _

section Calls

variable {body body' : Body} (h : ∀ scope ss, Deepens (body scope ss) (body' scope ss))

include h

theorem deepens_callFunction (f : FunctionObject) (arguments : List Value) :
    Deepens (callFunction body f arguments) (callFunction body' f arguments) :=
  (Deepens.refl _).bind fun scope => (h scope f.declaration.body).bind fun _ => .refl _

theorem deepens_construct (cls : ClassId) (arguments : List Value) :
    Deepens (construct body cls arguments) (construct body' cls arguments) := by
  refine (Deepens.refl _).bind fun object => (Deepens.refl _).bind fun m => ?_
  cases m.findMethod? cls "init" with
  | none => exact .refl _
  | some f =>
    exact (Deepens.refl _).bind fun f => (Deepens.refl _).bind fun f => (deepens_callFunction h f arguments).last

theorem deepens_call (callee : Value) (arguments : List Value) :
    Deepens (call body callee arguments) (call body' callee arguments) := by
  cases callee with
  | function f => exact (Deepens.refl _).bind fun f => deepens_callFunction h f arguments
  | «class» cls => exact deepens_construct h cls arguments
  | _ => exact .refl _

theorem deepens_checkedCall (paren : Token) (callee : Value) (arguments : List Value) :
    Deepens (checkedCall body paren callee arguments) (checkedCall body' paren callee arguments) := by
  refine (Deepens.refl _).bind fun m => ?_
  cases m.arity? callee with
  | none => exact .refl _
  | some expected => exact .ite ((deepens_call h callee arguments).limiting paren) (.refl _)

end Calls

/-! Trees -/

theorem deepens_evaluate_execute (rounds : Nat) : ∀ {depth depth' : Nat}, depth ≤ depth' →
    (∀ e, Deepens (evaluate rounds depth e) (evaluate rounds depth' e)) ∧
      ∀ s, Deepens (execute rounds depth s) (execute rounds depth' s)
  | 0, _, _ => ⟨fun _ => deepens_tooDeep _, fun _ => deepens_tooDeep _⟩
  | depth + 1, depth' + 1, hle => by
    obtain ⟨he, hs⟩ := deepens_evaluate_execute rounds (Nat.le_of_succ_le_succ hle)
    constructor
    · intro e
      cases e with
      | literal | «variable» | this | misplaced | unknown => exact .refl _
      | grouping inner => exact he inner
      | unary operator right => exact (he right).bind fun _ => .refl _
      | binary left operator right =>
        refine (he left).bind fun l => ?_
        split
        · exact .ite (.refl _) (he right)
        · exact .ite (he right) (.refl _)
        · exact (he right).bind fun _ => .refl _
      | assign name value => exact (he value).bind fun _ => .refl _
      | get object name => exact (he object).bind fun _ => .refl _
      | set object name value =>
        refine (he object).bind fun v => ?_
        cases v with
        | «instance» o => exact (he value).bind fun _ => .refl _
        | _ => exact .refl _
      | call callee paren arguments =>
        exact (he callee).bind fun f => (Deepens.mapM he arguments).bind fun vs =>
          deepens_checkedCall (deepens_block hs) paren f vs
    · intro s
      cases s with
      | function | «class» | misplaced | unknown => exact .refl _
      | expression inner => exact (he inner).last
      | print inner => exact (he inner).bind fun _ => .refl _
      | var name initializer =>
        cases initializer with
        | none => exact .refl _
        | some e => exact (he e).bind fun _ => .refl _
      | block statements => exact (Deepens.refl _).bind fun scope => deepens_block hs scope statements
      | branch condition whenTrue whenFalse =>
        refine (he condition).bind fun v => .ite (hs whenTrue) ?_
        cases whenFalse with
        | none => exact .refl _
        | some s => exact hs s
      | «while» condition body => exact deepens_loop (.map _ (he condition)) (hs body) rounds
      | «return» keyword value =>
        cases value with
        | none => exact .refl _
        | some e => exact (he e).last

theorem deepens_interpret {rounds depth depth' : Nat} (h : depth ≤ depth') (ss : List Stmt) :
    Deepens (interpret ⟨depth, rounds⟩ ss) (interpret ⟨depth', rounds⟩ ss) := by
  induction ss with
  | nil => exact .refl _
  | cons s ss ih => exact ((deepens_evaluate_execute rounds h).2 s).bind fun _ => ih

end Run
end Lox
