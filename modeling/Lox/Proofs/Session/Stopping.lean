import Lox.Proofs.Evaluation.Calls
import Lox.Proofs.Session.Reachable

/-! Where runs stop. A failure ends the statements of a program at the one that failed, as if it had been the last.
It is reported once, and the machine is left for the next program in the scope that this one began in, with all
that was made up to the failure. -/

namespace Lox
namespace Run

variable {α β : Type} {limits : Limits} {before : List Stmt} {s : Stmt} {ss : List Stmt} {i : Interrupt}
  {m m₁ m' : Machine}

theorem interpret_append (limits : Limits) (before behind : List Stmt) :
    interpret limits (before ++ behind) = (interpret limits before >>= fun _ => interpret limits behind) := by
  induction before with
  | nil => rfl
  | cons s before ih => rw [List.cons_append, interpret, ih, interpret, bind_assoc]

/-- What stands behind a statement that does not end well is not run. -/
theorem interpret_stops (hbefore : interpret limits before m = .ok () m₁)
    (hs : execute limits.rounds limits.depth s m₁ = .error i m') (behind : List Stmt) :
    interpret limits (before ++ s :: behind) m = .error i m' := by
  rw [interpret_append, bind_of_ok hbefore, interpret, bind_of_error hs]

/-- Statements that do not end well have one that does not, behind some that do. -/
theorem exists_stop (h : interpret limits ss m = .error i m') :
    ∃ before s behind m₁, ss = before ++ s :: behind ∧ interpret limits before m = .ok () m₁ ∧
      execute limits.rounds limits.depth s m₁ = .error i m' := by
  induction ss generalizing m with
  | nil => cases h
  | cons s ss ih =>
    rcases bind_eq_error h with hs | ⟨c, m₁, hs, hrest⟩
    · exact ⟨[], s, ss, m, rfl, rfl, hs⟩
    · obtain ⟨before, t, behind, m₂, rfl, hbefore, ht⟩ := ih hrest
      exact ⟨s :: before, t, behind, m₂, rfl, by rw [interpret, bind_of_ok hs, hbefore], ht⟩

end Run

namespace Session

/-- Statements of which one fails: the failure is all that is reported, and nothing is handed on. -/
theorem execute_of_failed {limits : Limits} {m m' : Machine} {ss : List Stmt} {e : RuntimeError}
    (h : interpret limits ss m = .error (.failed e) m') (reporter : Reporter) :
    execute limits ⟨m, reporter⟩ ss = (⟨m', reporter.report e.diagnostic⟩, none) := by
  unfold execute
  rw [h]
  rfl

/-- A program leaves the reporter as it was, or one of its statements failed. -/
theorem reporter_execute (limits : Limits) (m : Machine) (reporter : Reporter) (ss : List Stmt) :
    (execute limits ⟨m, reporter⟩ ss).1.reporter = reporter ∨
      ∃ e m', interpret limits ss m = .error (.failed e) m' := by
  unfold execute
  rcases interpret limits ss m with _ | ⟨e | _ | _ | _, m'⟩
  · exact .inl rfl
  · exact .inr ⟨e, m', rfl⟩
  all_goals exact .inl rfl

end Session

open Run in
/-- Whatever is run, on whatever machine, and however it ends, it comes back to the scope it began in and takes back
nothing: blocks change nothing on the way out but the current scope, and calls change nothing. A program reports one
failure at most. With one, it has done what it would have done without the statements behind the failing one, and
that statement's machine is where the next program begins. -/
theorem current_restored (m : Machine) :
    (∀ rounds depth,
      (∀ e : Expr, m.Continues ((evaluate rounds depth e).after m)) ∧
      (∀ s : Stmt, m.Continues ((execute rounds depth s).after m)) ∧
      (∀ scope ss, m.Continues ((block (execute rounds depth) scope ss).after m) ∧
        (block (execute rounds depth) scope ss).after m =
          { (sequence (execute rounds depth) ss).after { m with current := scope } with current := m.current }) ∧
      (∀ callee vs, m.Continues ((call (block (execute rounds depth)) callee vs).after m)) ∧
      ∀ paren callee vs, m.Continues ((checkedCall (block (execute rounds depth)) paren callee vs).after m) ∧
        (limiting paren (call (block (execute rounds depth)) callee vs)).after m =
          (call (block (execute rounds depth)) callee vs).after m) ∧
    (∀ limits ss, m.Continues ((interpret limits ss).after m)) ∧
    ∀ limits reporter ss,
      let ended := Session.execute limits ⟨m, reporter⟩ ss
      m.Continues ended.1.machine ∧
        (ended.1.reporter = reporter ∨
          ∃ before s behind m₁ e, ss = before ++ s :: behind ∧ interpret limits before m = .ok () m₁ ∧
            execute limits.rounds limits.depth s m₁ = .error (.failed e) ended.1.machine ∧
            ended.1.reporter = reporter.report (.runtime e.token.line e.problem.message) ∧ ended.2 = none ∧
            m.Continues m₁ ∧ m₁.Continues ended.1.machine ∧
            ∀ behind', Session.execute limits ⟨m, reporter⟩ (before ++ s :: behind') = ended) := by
  refine ⟨fun rounds depth => ?_, fun limits ss => continues_interpret limits ss m, fun limits reporter ss => ?_⟩
  · obtain ⟨he, hs⟩ := continues_evaluate_execute rounds depth
    have hbody : ∀ scope ss, Continues (block (execute rounds depth) scope ss) := continues_block hs
    refine ⟨fun e => he e m, fun s => hs s m, fun scope ss => ⟨hbody scope ss m, after_inScope scope _ m⟩,
      fun callee vs => continues_call hbody callee vs m, fun paren callee vs => ?_⟩
    exact ⟨continues_checkedCall hbody paren callee vs m, after_limiting paren _ m⟩
  · intro ended
    have hmachine : ended.1.machine = (interpret limits ss).after m :=
      Session.machine_settle reporter (interpret limits ss) m
    refine ⟨hmachine ▸ continues_interpret limits ss m, ?_⟩
    rcases Session.reporter_execute limits m reporter ss with hsame | ⟨e, m', hfailed⟩
    · exact .inl hsame
    · obtain ⟨before, s, behind, m₁, hss, hbefore, hs⟩ := exists_stop hfailed
      have hended : ended = (⟨m', reporter.report e.diagnostic⟩, none) := Session.execute_of_failed hfailed reporter
      have hfirst : m.Continues m₁ := by
        have h := continues_interpret limits before m
        unfold after at h
        rwa [hbefore] at h
      have hlast : m₁.Continues m' := by
        have h := (continues_evaluate_execute limits.rounds limits.depth).2 s m₁
        unfold after at h
        rwa [hs] at h
      rw [hended]
      refine .inr ⟨before, s, behind, m₁, e, hss, hbefore, hs, rfl, rfl, hfirst, hlast, fun behind' => ?_⟩
      exact Session.execute_of_failed (interpret_stops hbefore hs behind') reporter

end Lox
