import Lox.Proofs.Evaluation.Calls
import Lox.Proofs.Evaluation.Contained
import Lox.Proofs.Evaluation.Continues
import Lox.Proofs.Evaluation.Deepens
import Lox.Proofs.Grammar.Persists
import Lox.Proofs.Session.Reachable
import Lox.Proofs.Session.Rejected

/-! The limit of the nesting. A session that never meets it goes the same way under every higher limit. Where it is met
in a call, that call fails, and the session goes on with what was done before. -/

namespace Lox

/-- Whether a diagnostic says that the limit was met. -/
def Diagnostic.isExhaustion : Diagnostic → Bool
  | source _ _ message => message = ParseProblem.nesting.message
  | runtime _ message => message = RuntimeProblem.stackOverflow.message

/-- Whether a submission met the limit, in reading, in a call or outside all calls. -/
def Answer.isExhausted (a : Answer) : Bool :=
  (a.interrupt matches some .tooDeep) || a.reported.any Diagnostic.isExhaustion

variable {depth depth' rounds : Nat}

theorem Reading.ofText_deepens (h : depth ≤ depth') {source : String}
    (hd : (ofText depth source).diagnostics.any Diagnostic.isExhaustion = false) :
    ofText depth' source = ofText depth source := by
  have hnesting : ∀ e ∈ (Program.ofTokens depth (Scan.ofText source).tokens).errors, e.problem ≠ .nesting := by
    intro e he heq
    have hmem : e.diagnostic (Scan.ofText source).lastLine ∈ (ofText depth source).diagnostics :=
      List.mem_append_right _ (List.mem_map_of_mem he)
    have hsays : (e.diagnostic (Scan.ofText source).lastLine).isExhaustion := decide_eq_true (by rw [heq])
    exact List.any_eq_false.1 hd _ hmem hsays
  simp only [ofText, Program.ofTokens_deepens h hnesting]

theorem Stmt.render_deepens (h : depth ≤ depth') {s : Stmt} {text : String} (hs : s.render depth = .ok text) :
    s.render depth' = .ok text := by
  unfold render guarded at hs ⊢
  split at hs
  · cases hs
  · cases hs
  · split at hs
    · next hlow => rwa [if_pos (Nat.le_trans hlow h)]
    · cases hs

/-- A list that one function takes whole is taken alike by every function that does no less. -/
theorem mapM_eq_ok {ε α β : Type} {f g : α → Except ε β} (h : ∀ a b, f a = .ok b → g a = .ok b) {as : List α}
    {bs : List β} (has : as.mapM f = .ok bs) : as.mapM g = .ok bs := by
  induction as generalizing bs with
  | nil => exact has
  | cons a as ih =>
    rw [List.mapM_cons] at has ⊢
    cases ha : f a with
    | error e =>
      rw [ha] at has
      nomatch has
    | ok b =>
      rw [ha] at has
      cases hrest : as.mapM f with
      | error e =>
        rw [hrest] at has
        nomatch has
      | ok rest =>
        rw [hrest] at has
        rw [h a b ha, ih hrest]
        exact has

theorem renderProgram_deepens (h : depth ≤ depth') {ss : List Stmt} {text : String}
    (hss : renderProgram depth ss = .ok text) : renderProgram depth' ss = .ok text := by
  unfold renderProgram at hss ⊢
  cases htexts : ss.mapM (Stmt.render depth) with
  | error e =>
    rw [htexts] at hss
    nomatch hss
  | ok texts =>
    rw [htexts] at hss
    rwa [mapM_eq_ok (fun s text => Stmt.render_deepens h) htexts]

namespace Session

/-- Whether what began when `reported` diagnostics had been reported met the limit. -/
def Exhausts (reported : Nat) (ended : Session × Option Interrupt) : Prop :=
  ended.2 = some .tooDeep ∨ ∃ d ∈ ended.1.reporter.since reported, d.isExhaustion

theorem isExhausted_answer {limits : Limits} {s : Session} {x : Submission} :
    (s.answer limits x).1.isExhausted ↔
      Exhausts s.reporter.diagnostics.size (s.takeOutput.2.submit limits x.verbose x.source) := by
  simp only [Answer.isExhausted, Exhausts, answer, Bool.or_eq_true, List.any_eq_true]
  refine or_congr ?_ Iff.rfl
  cases (s.takeOutput.2.submit limits x.verbose x.source).2 with
  | none => simp
  | some i => cases i <;> simp

theorem exhausts_settle {α : Type} {r : EStateM.Result Interrupt Machine α} (h : Run.Exhausted r)
    (reporter : Reporter) : Exhausts reporter.diagnostics.size (settle reporter.reset r) := by
  obtain ⟨i, m, rfl, hi⟩ := h
  cases i with
  | tooDeep => exact .inl rfl
  | failed e =>
    refine .inr ⟨e.diagnostic, ?_, decide_eq_true (by rw [show e.problem = .stackOverflow from hi])⟩
    exact (reporter.since_reset_reportAll [e.diagnostic]).symm ▸ List.mem_singleton_self _
  | unfinished | stuck => exact hi.elim

theorem deepens_task (h : depth ≤ depth') (ss : List Stmt) :
    Run.Deepens (task ⟨depth, rounds⟩ ss) (task ⟨depth', rounds⟩ ss) := by
  unfold task
  split
  · next e => exact ((Run.deepens_evaluate_execute rounds h).1 e).bind fun _ => .refl _
  · exact Run.deepens_interpret h ss

theorem run_deepens (h : depth ≤ depth') {reporter : Reporter} {m : Machine} {ss : List Stmt}
    (hx : ¬ Exhausts reporter.diagnostics.size (run ⟨depth, rounds⟩ ⟨m, reporter.reset⟩ ss)) :
    run ⟨depth', rounds⟩ ⟨m, reporter.reset⟩ ss = run ⟨depth, rounds⟩ ⟨m, reporter.reset⟩ ss := by
  rw [run_eq] at hx
  rw [run_eq, run_eq, deepens_task h ss m fun hr => hx (exhausts_settle hr reporter)]

/-- What is wrong with a source is reported, so if that is no exhaustion a higher limit changes nothing of it. -/
theorem ofText_deepens_of_submit (h : depth ≤ depth') {s : Session} {x : Submission}
    (hx : ¬ Exhausts s.reporter.diagnostics.size (s.submit ⟨depth, rounds⟩ x.verbose x.source)) :
    Reading.ofText depth' x.source = Reading.ofText depth x.source := by
  refine Reading.ofText_deepens h (List.any_eq_false.2 fun d hd hsays => hx (.inr ⟨d, ?_, hsays⟩))
  have hrejected : x.isAccepted depth = false := Bool.eq_false_iff.2 fun hnone => by
    rw [Submission.isAccepted_iff.1 hnone] at hd
    exact List.not_mem_nil hd
  rw [submit_of_rejected ⟨depth, rounds⟩ hrejected s]
  exact (s.reporter.since_reset_reportAll _).symm ▸ hd

theorem submit_deepens (h : depth ≤ depth') {s : Session} {x : Submission}
    (hx : ¬ Exhausts s.reporter.diagnostics.size (s.submit ⟨depth, rounds⟩ x.verbose x.source)) :
    s.submit ⟨depth', rounds⟩ x.verbose x.source = s.submit ⟨depth, rounds⟩ x.verbose x.source := by
  have hreading := ofText_deepens_of_submit h hx
  have hsame : x.isAccepted depth' = x.isAccepted depth := by simp only [Submission.isAccepted, hreading]
  cases haccepted : x.isAccepted depth with
  | false =>
    rw [submit_of_rejected ⟨depth, rounds⟩ haccepted, submit_of_rejected ⟨depth', rounds⟩ (hsame.trans haccepted),
      hreading]
  | true =>
    have hsubmit := submit_of_accepted ⟨depth, rounds⟩ haccepted s
    have hsubmit' := submit_of_accepted ⟨depth', rounds⟩ (hsame.trans haccepted) s
    rw [hsubmit] at hx ⊢
    rw [hsubmit', hreading]
    dsimp only at hx ⊢
    split at hx
    · next hverbose =>
      rw [if_pos hverbose, if_pos hverbose]
      cases htext : renderProgram depth (Reading.ofText depth x.source).statements with
      | ok text =>
        rw [htext] at hx
        rw [renderProgram_deepens h htext]
        exact run_deepens h hx
      | error e =>
        rw [htext] at hx
        exact absurd (.inl rfl) hx
    · next hverbose =>
      rw [if_neg hverbose, if_neg hverbose]
      exact run_deepens h hx

theorem answers_deepens (h : depth ≤ depth') {s : Session} {xs : List Submission}
    (hx : ∀ a ∈ s.answers ⟨depth, rounds⟩ xs, a.isExhausted = false) :
    s.answers ⟨depth', rounds⟩ xs = s.answers ⟨depth, rounds⟩ xs ∧
      ∀ x ∈ xs, Reading.ofText depth' x.source = Reading.ofText depth x.source := by
  induction xs generalizing s with
  | nil => exact ⟨rfl, List.forall_mem_nil _⟩
  | cons x xs ih =>
    obtain ⟨hfirst, hrest⟩ := List.forall_mem_cons.1 hx
    have hquiet : ¬ Exhausts s.reporter.diagnostics.size
        (s.takeOutput.2.submit ⟨depth, rounds⟩ x.verbose x.source) := fun he => by
      rw [isExhausted_answer.2 he] at hfirst
      nomatch hfirst
    have hanswer : s.answer ⟨depth', rounds⟩ x = s.answer ⟨depth, rounds⟩ x := by
      simp only [answer, submit_deepens h hquiet]
    obtain ⟨hanswers, hreadings⟩ := ih hrest
    refine ⟨?_, List.forall_mem_cons.2 ⟨ofText_deepens_of_submit h hquiet, hreadings⟩⟩
    rw [answers, answers, hanswer, hanswers]

theorem contained_task {ss : List Stmt} (h : ∀ s ∈ ss, s.Fits depth) : Run.Contained (task ⟨depth, rounds⟩ ss) := by
  unfold task
  split
  · next e =>
    have he : e.Fits depth := by
      have hs := h _ (List.mem_singleton_self _)
      cases depth with
      | zero => exact hs.elim
      | succ depth => exact Expr.Fits.succ hs
    exact (Run.contained_evaluate rounds depth e he).bind fun _ => Run.contained_modify _
  · exact Run.contained_interpret h

theorem continues_task (limits : Limits) (ss : List Stmt) : Run.Continues (task limits ss) := by
  unfold task
  split
  · next e =>
    exact ((Run.continues_evaluate_execute limits.rounds limits.depth).1 e).bind fun _ =>
      Run.continues_modify fun m => Machine.continues_write m _
  · exact Run.continues_interpret limits ss

end Session

/-- An exhaustion that leaves a call expression was met before there was a call: in what is called, or in an
argument. -/
theorem Run.tooDeep_before_call {callee : Expr} {paren : Token} {arguments : List Expr} {m m' : Machine}
    (hr : evaluate rounds (depth + 1) (.call callee paren arguments) m = .error .tooDeep m') :
    evaluate rounds depth callee m = .error .tooDeep m' ∨ ∃ f m₁, evaluate rounds depth callee m = .ok f m₁ ∧
      arguments.mapM (evaluate rounds depth) m₁ = .error .tooDeep m' := by
  rcases bind_eq_error hr with hcallee | ⟨f, m₁, hcallee, hr⟩
  · exact .inl hcallee
  · rcases bind_eq_error hr with harguments | ⟨vs, m₂, -, hcall⟩
    · exact .inr ⟨f, m₁, hcallee, harguments⟩
    · exact absurd hcall (contained_checkedCall _ paren f vs m₂ m')

theorem Run.checkedCall_of_error {body : Body} {paren : Token} {callee : Value} {vs : List Value} {m m' : Machine}
    {i : Interrupt} (harity : m.arity? callee = some (vs.length : Int)) (hr : call body callee vs m = .error i m') :
    checkedCall body paren callee vs m = .error (i.outside paren) m' := by
  unfold checkedCall
  rw [bind_of_ok (get_eq m), harity]
  simp only [if_true]
  exact limiting_of_error hr paren

/-- The limit of the nesting is not seen until it is met: a session that does not meet it does the same under every
higher one, reading the same trees. And it is met in a call only for that call to fail. Nothing is broken off by the
call, which comes back to the scope and keeps what was done. So a program with room for all but its functions is
never broken off, and what is exhausted in a call is reported like any other failure. -/
theorem Session.limit_transparent (rounds : Nat) :
    (∀ depth depth' (s : Session) (xs : List Submission), depth ≤ depth' →
      (∀ a ∈ s.answers ⟨depth, rounds⟩ xs, a.isExhausted = false) →
        s.answers ⟨depth', rounds⟩ xs = s.answers ⟨depth, rounds⟩ xs ∧
          ∀ x ∈ xs, Reading.ofText depth' x.source = Reading.ofText depth x.source) ∧
    (∀ depth paren callee vs m m', let body := Run.block (Lox.execute rounds depth)
      Run.checkedCall body paren callee vs m ≠ .error .tooDeep m' ∧
        ∀ i, m.arity? callee = some (vs.length : Int) → Run.call body callee vs m = .error i m' →
          Run.checkedCall body paren callee vs m = .error (i.outside paren) m' ∧ m.Continues m') ∧
    (∀ depth callee paren arguments m m',
      evaluate rounds (depth + 1) (.call callee paren arguments) m = .error .tooDeep m' →
        evaluate rounds depth callee m = .error .tooDeep m' ∨ ∃ f m₁, evaluate rounds depth callee m = .ok f m₁ ∧
          arguments.mapM (evaluate rounds depth) m₁ = .error .tooDeep m') ∧
    ∀ depth (s : Session) ss, (∀ t ∈ ss, t.Fits depth) →
      let ended := s.run ⟨depth, rounds⟩ ss
      ended.2 ≠ some .tooDeep ∧ s.machine.Continues ended.1.machine ∧
        ∀ paren m', task ⟨depth, rounds⟩ ss s.machine = .error (.failed ⟨paren, .stackOverflow⟩) m' →
          ended = (⟨m', s.reporter.report (.runtime paren.line "Stack overflow.")⟩, none) := by
  refine ⟨fun depth depth' s xs h hx => answers_deepens h hx, fun depth paren callee vs m m' => ?_,
    fun depth callee paren arguments m m' hr => Run.tooDeep_before_call hr, fun depth s ss h => ?_⟩
  · refine ⟨Run.contained_checkedCall _ paren callee vs m m', fun i harity hr => ?_⟩
    have hbody := Run.continues_block (Run.continues_evaluate_execute rounds depth).2
    have hcontinues := Run.continues_call hbody callee vs m
    unfold Run.after at hcontinues
    rw [hr] at hcontinues
    exact ⟨Run.checkedCall_of_error harity hr, hcontinues⟩
  · dsimp only
    rw [run_eq]
    have hcontinues := continues_task ⟨depth, rounds⟩ ss s.machine
    refine ⟨?_, ?_, fun paren m' hr => by rw [hr]; rfl⟩
    · rcases hr : task ⟨depth, rounds⟩ ss s.machine with _ | ⟨_ | _ | _ | _, m'⟩
      case error.tooDeep => exact absurd hr (contained_task h s.machine m')
      all_goals nofun
    · rwa [machine_settle]

/-- The line of the call that a run ended at over an exhaustion. -/
def Run.overflowLine? : EStateM.Result Interrupt Machine Unit → Option Int
  | .error (.failed ⟨paren, .stackOverflow⟩) _ => some paren.line
  | _ => none

theorem Run.overflowLine?_eq_some {r : EStateM.Result Interrupt Machine Unit} {line : Int}
    (h : overflowLine? r = some line) :
    ∃ paren m', r = .error (.failed ⟨paren, .stackOverflow⟩) m' ∧ paren.line = line := by
  unfold overflowLine? at h
  split at h
  · next paren m' => exact ⟨paren, m', rfl, Option.some.inj h⟩
  · cases h

/-- `f();` -/
def callOfF : Expr := .call (.variable ⟨.identifier, "f", .nil, 2⟩) ⟨.rightParen, ")", .nil, 2⟩ []

/-- Where `fun f() { f(); }` is declared. -/
def Machine.endless : Machine :=
  (execute 9 5 (.function ⟨.identifier, "f", .nil, 1⟩ [] [.expression callOfF])).after (.fresh fun _ => 0)

theorem Session.limit_transparent_endless :
    let s : Session := ⟨.endless, .fresh⟩
    let xs : List Submission := [⟨"fun g(x) { print x; }", false⟩, ⟨"\x7b g(\"a\"); \x7d", true⟩]
    let paren : Token := ⟨.rightParen, ")", .nil, 2⟩
    let body := Run.block (Lox.execute 9 1)
    s.answers ⟨30, 9⟩ xs = s.answers ⟨20, 9⟩ xs ∧
      (∃ m', Run.call body (.function 0) [] .endless = .error .tooDeep m' ∧
        Run.checkedCall body paren (.function 0) [] .endless = .error (.failed ⟨paren, .stackOverflow⟩) m') ∧
      evaluate 9 0 (.variable ⟨.identifier, "f", .nil, 2⟩) .endless = .error .tooDeep .endless ∧
      ∃ m', s.run ⟨5, 9⟩ [.expression callOfF] =
        (⟨m', s.reporter.report (.runtime 2 "Stack overflow.")⟩, none) := by
  intro s xs paren body
  obtain ⟨hdeeper, hcall, hbefore, hrun⟩ := Session.limit_transparent 9
  refine ⟨(hdeeper 20 30 s xs (by decide) (by decide +kernel)).1, ?_, ?_, ?_⟩
  · have hr : Run.call body (.function 0) [] .endless =
        .error .tooDeep ((Run.call body (.function 0) []).after .endless) := rfl
    exact ⟨_, hr, ((hcall 1 paren (.function 0) [] .endless _).2 .tooDeep rfl hr).1⟩
  · rcases hbefore 0 (.variable ⟨.identifier, "f", .nil, 2⟩) paren [] .endless .endless rfl with h | ⟨f, m₁, h, -⟩
    · exact h
    · cases h
  · have hfits : ∀ t ∈ [Stmt.expression callOfF], t.Fits 5 := by
      intro t ht
      obtain rfl := List.mem_singleton.1 ht
      exact ⟨trivial, List.forall_mem_nil _⟩
    obtain ⟨t, m', hr, hline⟩ := Run.overflowLine?_eq_some
      (show Run.overflowLine? (task ⟨5, 9⟩ [.expression callOfF] s.machine) = some 2 by decide +kernel)
    rw [← hline]
    exact ⟨m', (hrun 5 s _ hfits).2.2 t m' hr⟩

end Lox
