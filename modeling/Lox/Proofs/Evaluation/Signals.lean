import Lox.Proofs.Evaluation.Calls
import Lox.Proofs.Evaluation.Raising

/-! Return by signal is return by exception. The evaluator whose statements say how they ended does the same, in
every state, as the one whose `return` raises its value: it writes the same, reports the same, and leaves the
same machine. -/

namespace Lox
namespace Raising

variable {α β : Type}

/-! Lifting -/

theorem lift_pure (a : α) : lift (pure a) = pure a := rfl

/-- What is lifted raises no returned value. -/
theorem lift_ne_returned (p : Run α) (m m' : Machine) (v : Value) : lift p m ≠ .error (.returned v) m' := by
  unfold lift
  cases p m <;> exact nofun

theorem lift_bind (p : Run α) (f : α → Run β) : lift (p >>= f) = lift p >>= fun a => lift (f a) := by
  funext m
  show lift (EStateM.bind p f) m = EStateM.bind (lift p) _ m
  unfold EStateM.bind lift
  dsimp only
  cases p m <;> rfl

theorem lift_map (f : α → β) (p : Run α) : lift (f <$> p) = f <$> lift p := by
  funext m
  show lift (EStateM.map f p) m = EStateM.map f (lift p) m
  unfold EStateM.map lift
  dsimp only
  cases p m <;> rfl

theorem lift_mapM {γ : Type} (f : γ → Run α) (cs : List γ) :
    lift (cs.mapM f) = cs.mapM fun c => lift (f c) := by
  induction cs with
  | nil => rfl
  | cons c cs ih => simp only [List.mapM_cons, lift_bind, lift_pure, ih]

theorem raise_eq (p : Run Completion) : raise p = lift p >>= fun c =>
    match c with | .normal => pure () | .returned v => throw (.returned v) := by
  funext m
  show raise p m = EStateM.bind (lift p) _ m
  unfold raise EStateM.bind lift
  dsimp only
  rcases p m with ⟨_ | v, m'⟩ | ⟨i, m'⟩ <;> rfl

theorem raise_bind (p : Run α) (f : α → Run Completion) :
    raise (p >>= f) = lift p >>= fun a => raise (f a) := by
  simp only [raise_eq, lift_bind, bind_assoc]

/-- A statement that ends normally whenever it ends. -/
theorem raise_normal (p : Run Unit) : raise (do p; pure .normal) = lift p := by
  rw [raise_bind]
  exact bind_pure (lift p)

/-! The ways of running statements -/

section Statements

variable {execute : Stmt → Run Completion} {execute' : Stmt → Raising Unit}

theorem sequence_eq (h : ∀ s, execute' s = raise (execute s)) (ss : List Stmt) :
    sequence execute' ss = raise (Run.sequence execute ss) := by
  induction ss with
  | nil => rfl
  | cons s ss ih =>
    rw [sequence, Run.sequence, raise_bind, h, raise_eq, bind_assoc]
    congr 1
    funext c
    cases c with
    | normal => exact ih
    | returned v => rfl

theorem inScope_raise (scope : ScopeId) (p : Run Completion) :
    inScope scope (raise p) = raise (Run.inScope scope p) := by
  funext m
  unfold inScope raise Run.inScope
  dsimp only
  rcases p { m with current := scope } with ⟨_ | v, m'⟩ | ⟨i, m'⟩ <;> rfl

theorem block_eq (h : ∀ s, execute' s = raise (execute s)) (scope : ScopeId) (ss : List Stmt) :
    block execute' scope ss = raise (Run.block execute scope ss) := by
  unfold block Run.block
  rw [sequence_eq h, inScope_raise]

theorem loop_eq (condition : Run Bool) (body : Run Completion) (rounds : Nat) :
    loop (lift condition) (raise body) rounds = raise (Run.loop condition body rounds) := by
  induction rounds with
  | zero => rfl
  | succ rounds ih =>
    rw [loop, Run.loop, raise_bind]
    congr 1
    funext b
    cases b with
    | false => rfl
    | true =>
      rw [if_pos rfl, if_pos rfl, raise_bind, ih, raise_eq body, bind_assoc]
      congr 1
      funext c
      cases c with
      | normal => rfl
      | returned v => rfl

/-- What is caught around a statement is what it returns. -/
theorem catching_raise (p : Run Completion) (a : α) (returned : Value → Raising α) :
    catching (do raise p; pure a) returned = lift p >>= fun c =>
      match c with | .normal => pure a | .returned v => returned v := by
  funext m
  show EStateM.tryCatch (EStateM.bind (raise p) _) _ m = EStateM.bind (lift p) _ m
  unfold EStateM.tryCatch EStateM.bind raise lift
  dsimp only
  rcases p m with ⟨_ | v, m'⟩ | ⟨i, m'⟩ <;> rfl

end Statements

/-! Calls -/

section Calls

variable {body : Run.Body} {body' : Body}

theorem limiting_lift (paren : Token) (p : Run α) :
    limiting paren (lift p) = lift (Run.limiting paren p) := by
  funext m
  show EStateM.tryCatch (lift p) _ m = _
  unfold EStateM.tryCatch lift Run.limiting
  dsimp only
  rcases p m with ⟨a, m'⟩ | ⟨_ | _ | _ | _, m'⟩ <;> rfl

variable (h : ∀ scope ss, body' scope ss = raise (body scope ss))

include h

theorem callFunction_eq (f : FunctionObject) (arguments : List Value) :
    callFunction body' f arguments = lift (Run.callFunction body f arguments) := by
  unfold callFunction Run.callFunction
  rw [lift_bind]
  congr 1
  funext scope
  rw [lift_bind, h, catching_raise, bind_assoc]
  congr 1
  funext c
  unfold Run.result
  cases c <;> cases f.isInitializer <;> rfl

theorem construct_eq (cls : ClassId) (arguments : List Value) :
    construct body' cls arguments = lift (Run.construct body cls arguments) := by
  unfold construct Run.construct
  rw [lift_bind]
  congr 1
  funext object
  rw [lift_bind]
  congr 1
  funext m
  cases m.findMethod? cls "init" with
  | none => rfl
  | some f =>
    dsimp only
    simp only [lift_bind, callFunction_eq h, lift_pure]
    rfl

theorem call_eq (callee : Value) (arguments : List Value) :
    call body' callee arguments = lift (Run.call body callee arguments) := by
  cases callee with
  | function id =>
    show _ = lift (Run.functionObject id >>= _)
    rw [lift_bind]
    simp only [← callFunction_eq h]
    rfl
  | «class» id => exact construct_eq h id arguments
  | native | nil | bool | number | string | «instance» => rfl

theorem checkedCall_eq (paren : Token) (callee : Value) (arguments : List Value) :
    checkedCall body' paren callee arguments = lift (Run.checkedCall body paren callee arguments) := by
  unfold checkedCall Run.checkedCall
  rw [lift_bind]
  congr 1
  funext m
  cases m.arity? callee with
  | none => rfl
  | some expected =>
    dsimp only
    split
    · rw [call_eq h, limiting_lift]
    · rfl

end Calls

/-! The evaluator -/

theorem evaluate_succ {rounds depth : Nat} (hev : ∀ e, evaluate rounds depth e = lift (Lox.evaluate rounds depth e))
    (hex : ∀ s, execute rounds depth s = raise (Lox.execute rounds depth s)) (e : Expr) :
    evaluate rounds (depth + 1) e = lift (Lox.evaluate rounds (depth + 1) e) := by
  have hmap : evaluate rounds depth = fun e => lift (Lox.evaluate rounds depth e) := funext hev
  unfold evaluate Lox.evaluate
  cases e with
  | literal | «variable» | this | misplaced | unknown => rfl
  | grouping inner => exact hev inner
  | unary operator right =>
    dsimp only
    rw [lift_bind, hev]
    rfl
  | binary left operator right =>
    dsimp only
    rw [lift_bind, hev]
    congr 1
    funext l
    cases operator.kind with
    | kwOr =>
      dsimp only
      split
      · rfl
      · exact hev right
    | kwAnd =>
      dsimp only
      split
      · exact hev right
      · rfl
    | _ =>
      dsimp only
      rw [lift_bind, hev]
      rfl
  | assign name value =>
    dsimp only
    rw [lift_bind, hev]
    simp only [lift_bind, lift_pure]
    rfl
  | get object name =>
    dsimp only
    rw [lift_bind, hev]
    congr 1
    funext v
    cases v <;> rfl
  | set object name value =>
    dsimp only
    rw [lift_bind, hev]
    congr 1
    funext v
    cases v with
    | «instance» o =>
      dsimp only
      rw [lift_bind, hev]
      rfl
    | nil | bool | number | string | function | «class» | native => rfl
  | call callee paren arguments =>
    dsimp only
    rw [lift_bind, hev]
    congr 1
    funext f
    rw [lift_bind, lift_mapM, hmap]
    congr 1
    funext vs
    exact checkedCall_eq (block_eq hex) paren f vs

theorem execute_succ {rounds depth : Nat} (hev : ∀ e, evaluate rounds depth e = lift (Lox.evaluate rounds depth e))
    (hex : ∀ s, execute rounds depth s = raise (Lox.execute rounds depth s)) (s : Stmt) :
    execute rounds (depth + 1) s = raise (Lox.execute rounds (depth + 1) s) := by
  unfold execute Lox.execute
  cases s with
  | misplaced | unknown => rfl
  | expression inner =>
    dsimp only
    rw [raise_bind, hev]
    rfl
  | print inner =>
    dsimp only
    rw [raise_bind, hev]
    rfl
  | var name initializer =>
    cases initializer with
    | none => rfl
    | some e =>
      dsimp only
      rw [raise_bind, hev]
      rfl
  | block statements =>
    dsimp only
    rw [raise_bind]
    congr 1
    funext scope
    exact block_eq hex scope statements
  | branch condition whenTrue whenFalse =>
    dsimp only
    rw [raise_bind, hev]
    congr 1
    funext v
    split
    · exact hex whenTrue
    · cases whenFalse with
      | none => rfl
      | some s => exact hex s
  | «while» condition body =>
    dsimp only
    rw [hev, hex, ← lift_map, loop_eq]
  | function name params body => rfl
  | «return» keyword value =>
    cases value with
    | none => rfl
    | some e =>
      dsimp only
      rw [raise_bind, hev]
      rfl
  | «class» name methods => exact (raise_normal _).symm

/-- The two evaluators agree on every expression and on every statement, in every state. -/
theorem evaluate_execute_eq (rounds : Nat) : ∀ depth,
    (∀ e, evaluate rounds depth e = lift (Lox.evaluate rounds depth e)) ∧
      ∀ s, execute rounds depth s = raise (Lox.execute rounds depth s)
  | 0 => ⟨fun _ => by unfold evaluate Lox.evaluate; rfl, fun _ => by unfold execute Lox.execute; rfl⟩
  | depth + 1 =>
    have ⟨hev, hex⟩ := evaluate_execute_eq rounds depth
    ⟨evaluate_succ hev hex, execute_succ hev hex⟩

theorem interpret_eq (limits : Limits) (ss : List Stmt) :
    interpret limits ss = lift (Lox.interpret limits ss) := by
  induction ss with
  | nil => rfl
  | cons s ss ih =>
    have hcaught := catching_raise (Lox.execute limits.rounds limits.depth s) () fun _ => pure ()
    rw [bind_pure_unit] at hcaught
    rw [interpret, Lox.interpret, lift_bind, (evaluate_execute_eq limits.rounds limits.depth).2, hcaught,
      bind_assoc, ih]
    congr 1
    funext c
    cases c <;> rfl

theorem executeIn_eq (limits : Limits) (s : Session) (ss : List Stmt) :
    executeIn limits s ss =
      ((s.execute limits ss).1, (s.execute limits ss).2.map .interrupt) := by
  unfold executeIn Session.execute
  rw [interpret_eq, lift]
  rcases Lox.interpret limits ss s.machine with ⟨_, m⟩ | ⟨_ | _ | _ | _, m⟩ <;> rfl

end Raising

namespace Run

/-- What follows a part that returns is not run. -/
theorem sequence_append_of_returned {execute : Stmt → Run Completion} {ss : List Stmt} {v : Value}
    {m' : Machine} (rest : List Stmt) : ∀ {m : Machine}, sequence execute ss m = .ok (.returned v) m' →
      sequence execute (ss ++ rest) m = .ok (.returned v) m' := by
  induction ss with
  | nil => exact nofun
  | cons s ss ih =>
    intro m h
    obtain ⟨c, m₁, hs, hss⟩ := bind_eq_ok h
    show (execute s >>= _) m = _
    rw [bind_of_ok hs]
    cases c with
    | normal => exact ih hss
    | returned w => exact hss

/-- A loop whose body returns turns no more. -/
theorem loop_of_returned {condition : Run Bool} {body : Run Completion} {m m₁ m₂ : Machine} {v : Value}
    (hc : condition m = .ok true m₁) (hb : body m₁ = .ok (.returned v) m₂) (rounds : Nat) :
    loop condition body (rounds + 1) m = .ok (.returned v) m₂ := by
  rw [loop, bind_of_ok hc, if_pos rfl, bind_of_ok hb]
  rfl

end Run

/-- Programs, sessions, expressions, statements and calls come to the same in both evaluators. A part of a body
that returns keeps the rest from being run, a loop that returns turns no more, and no value is raised across
the call that it is returned from. -/
theorem returns_signalled_or_raised :
    (∀ limits ss, Raising.interpret limits ss = Raising.lift (interpret limits ss)) ∧
    (∀ limits (s : Session) ss, Raising.executeIn limits s ss =
      ((s.execute limits ss).1, (s.execute limits ss).2.map .interrupt)) ∧
    ∀ rounds depth,
      (∀ e, Raising.evaluate rounds depth e = Raising.lift (evaluate rounds depth e)) ∧
      (∀ s, Raising.execute rounds depth s = Raising.raise (execute rounds depth s)) ∧
      (∀ callee arguments, Raising.call (Raising.block (Raising.execute rounds depth)) callee arguments =
        Raising.lift (Run.call (Run.block (execute rounds depth)) callee arguments)) ∧
      (∀ ss rest m v m', Run.sequence (execute rounds depth) ss m = .ok (.returned v) m' →
        Run.sequence (execute rounds depth) (ss ++ rest) m = .ok (.returned v) m') ∧
      (∀ condition body turns m c m₁ v m₂, evaluate rounds depth condition m = .ok c m₁ → c.isTruthy →
        execute rounds depth body m₁ = .ok (.returned v) m₂ →
          Run.loop (Value.isTruthy <$> evaluate rounds depth condition) (execute rounds depth body)
            (turns + 1) m = .ok (.returned v) m₂) ∧
      ∀ m v m', (∀ e, Raising.evaluate rounds depth e m ≠ .error (.returned v) m') ∧
        ∀ callee arguments, Raising.call (Raising.block (Raising.execute rounds depth)) callee arguments m ≠
          .error (.returned v) m' := by
  refine ⟨Raising.interpret_eq, Raising.executeIn_eq, fun rounds depth => ?_⟩
  obtain ⟨hev, hex⟩ := Raising.evaluate_execute_eq rounds depth
  have hcall := Raising.call_eq (Raising.block_eq hex)
  refine ⟨hev, hex, hcall, fun ss rest m v m' h => Run.sequence_append_of_returned rest h,
    fun condition body turns m c m₁ v m₂ hc htrue hb => ?_, fun m v m' => ⟨fun e => ?_, fun callee arguments => ?_⟩⟩
  · refine Run.loop_of_returned ?_ hb turns
    show EStateM.map _ _ m = _
    unfold EStateM.map
    rw [hc]
    exact congrArg (EStateM.Result.ok · m₁) htrue
  · rw [hev]
    exact Raising.lift_ne_returned _ m m' v
  · rw [hcall]
    exact Raising.lift_ne_returned _ m m' v

end Lox
