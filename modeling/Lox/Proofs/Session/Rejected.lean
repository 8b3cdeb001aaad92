import Lox.Session

/-! Sessions without what they reject. What a source does depends on the machine alone, and one in which something is
wrong leaves the machine as it is. So the sources that run do the same whether or not others were rejected between
them. -/

namespace Lox

namespace Reporter

theorem hadError_reportAll (r : Reporter) (ds : List Diagnostic) :
    (r.reportAll ds).hadError = (r.hadError || ds.any (!·.isRuntime)) := by
  induction ds generalizing r with
  | nil => exact (Bool.or_false _).symm
  | cons d ds ih => rw [reportAll, List.foldl_cons, ← reportAll, ih, List.any_cons, report, Bool.or_assoc]

theorem hadRuntimeError_reportAll (r : Reporter) (ds : List Diagnostic) :
    (r.reportAll ds).hadRuntimeError = (r.hadRuntimeError || ds.any Diagnostic.isRuntime) := by
  induction ds generalizing r with
  | nil => exact (Bool.or_false _).symm
  | cons d ds ih => rw [reportAll, List.foldl_cons, ← reportAll, ih, List.any_cons, report, Bool.or_assoc]

/-- After both flags were lowered and `ds` reported, all but the earlier diagnostics is known from `ds`. -/
theorem since_reset_reportAll (r : Reporter) (ds : List Diagnostic) :
    (r.reset.reportAll ds).since r.diagnostics.size = ds := by
  unfold since
  rw [diagnostics_reportAll]
  simp [reset]

end Reporter

/-- Reading a source tells of the source only. -/
theorem Reading.isRuntime_eq_false {depth : Nat} {source : String} :
    ∀ d ∈ (ofText depth source).diagnostics, d.isRuntime = false := by
  intro d hd
  rcases List.mem_append.1 hd with h | h
  · obtain ⟨e, -, rfl⟩ := List.mem_map.1 h
    rfl
  · obtain ⟨e, -, rfl⟩ := List.mem_map.1 h
    rfl

theorem Reading.hadError_reportAll (depth : Nat) (source : String) (r : Reporter) :
    (r.reset.reportAll (ofText depth source).diagnostics).hadError =
      !(ofText depth source).diagnostics.isEmpty := by
  rw [Reporter.hadError_reportAll]
  have h : ∀ ds : List Diagnostic, (∀ d ∈ ds, d.isRuntime = false) → ds.any (!·.isRuntime) = !ds.isEmpty := by
    intro ds hds
    cases ds with
    | nil => rfl
    | cons d ds => simp [hds d List.mem_cons_self]
  exact h _ isRuntime_eq_false

/-- A source that is submitted, and whether its tree is to be written. -/
structure Submission where
  source : String
  verbose : Bool

/-- Whether nothing is wrong with the source, be it in its tokens or in what is read of them. -/
def Submission.isAccepted (depth : Nat) (x : Submission) : Bool :=
  (Reading.ofText depth x.source).diagnostics.isEmpty

/-- What a submission does: the machine it begins on and the one it leaves, what it writes and what it reports, both
flags behind it, and what it hands on. -/
structure Answer where
  submission : Submission
  start : Machine
  stop : Machine
  output : String
  reported : List Diagnostic
  hadError : Bool
  hadRuntimeError : Bool
  interrupt : Option Interrupt

theorem Submission.isAccepted_iff {depth : Nat} {x : Submission} :
    x.isAccepted depth ↔ (Reading.ofText depth x.source).diagnostics = [] := List.isEmpty_iff

namespace Session

def answer (limits : Limits) (s : Session) (x : Submission) : Answer × Session :=
  let begun := s.takeOutput.2
  let ended := begun.submit limits x.verbose x.source
  ({ submission := x
     start := begun.machine
     stop := ended.1.machine
     output := ended.1.machine.output
     reported := ended.1.reporter.since begun.reporter.diagnostics.size
     hadError := ended.1.reporter.hadError
     hadRuntimeError := ended.1.reporter.hadRuntimeError
     interrupt := ended.2 }, ended.1)

/-- What submissions do one after the other, whatever becomes of each. -/
def answers (limits : Limits) : Session → List Submission → List Answer
  | _, [] => []
  | s, x :: xs => (s.answer limits x).1 :: answers limits (s.answer limits x).2 xs

/-! What a submission does depends on the machine alone -/

/-- Whether what is done is the same whatever was reported before. -/
def Regardless (f : Reporter → Session × Option Interrupt) : Prop :=
  ∃ m ds i, ∀ reporter, f reporter = (⟨m, reporter.reportAll ds⟩, i)

theorem regardless_settle {α : Type} (r : EStateM.Result Interrupt Machine α) :
    Regardless fun reporter => settle reporter r := by
  rcases r with ⟨a, m⟩ | ⟨e | _ | _ | s, m⟩
  · exact ⟨m, [], none, fun _ => rfl⟩
  · exact ⟨m, [e.diagnostic], none, fun _ => rfl⟩
  · exact ⟨m, [], some .tooDeep, fun _ => rfl⟩
  · exact ⟨m, [], some .unfinished, fun _ => rfl⟩
  · exact ⟨m, [], some (.stuck s), fun _ => rfl⟩

/-- What is run of statements in which nothing is wrong. -/
def task (limits : Limits) (statements : List Stmt) : Run Unit :=
  match statements with
  | [.expression e] => do
    let v ← evaluate limits.rounds limits.depth e
    modify fun m => m.write (m.display v)
  | _ => interpret limits statements

theorem run_eq (limits : Limits) (s : Session) (statements : List Stmt) :
    s.run limits statements = settle s.reporter (task limits statements s.machine) := by
  rcases statements with _ | ⟨s, _ | ⟨t, ss⟩⟩
  · rfl
  · cases s <;> rfl
  · cases s <;> rfl

theorem regardless_run (limits : Limits) (m : Machine) (ss : List Stmt) :
    Regardless fun reporter => run limits ⟨m, reporter⟩ ss := by
  simp only [run_eq]
  exact regardless_settle (task limits ss m)

theorem submit_of_rejected (limits : Limits) {x : Submission} (h : x.isAccepted limits.depth = false) (s : Session) :
    s.submit limits x.verbose x.source =
      (⟨s.machine, s.reporter.reset.reportAll (Reading.ofText limits.depth x.source).diagnostics⟩, none) := by
  have herror := Reading.hadError_reportAll limits.depth x.source s.reporter
  rw [show (Reading.ofText limits.depth x.source).diagnostics.isEmpty = false from h] at herror
  exact if_pos herror

theorem submit_of_accepted (limits : Limits) {x : Submission} (h : x.isAccepted limits.depth) (s : Session) :
    s.submit limits x.verbose x.source =
      let statements := (Reading.ofText limits.depth x.source).statements
      if x.verbose then
        match renderProgram limits.depth statements with
        | .ok text => run limits ⟨s.machine.write ("[ast] >>> " ++ text), s.reporter.reset⟩ statements
        | .error _ => (⟨s.machine, s.reporter.reset⟩, some .tooDeep)
      else run limits ⟨s.machine, s.reporter.reset⟩ statements := by
  have hnone := Submission.isAccepted_iff.1 h
  unfold submit
  dsimp only
  rw [hnone]
  rfl

theorem regardless_submit (limits : Limits) (x : Submission) (m : Machine) :
    ∃ m' ds i, ∀ reporter : Reporter,
      submit limits x.verbose ⟨m, reporter⟩ x.source = (⟨m', reporter.reset.reportAll ds⟩, i) := by
  cases hx : x.isAccepted limits.depth with
  | false => exact ⟨m, _, none, fun reporter => submit_of_rejected limits hx ⟨m, reporter⟩⟩
  | true =>
    let statements := (Reading.ofText limits.depth x.source).statements
    have hrun (m : Machine) : ∃ m' ds i, ∀ reporter : Reporter,
        run limits ⟨m, reporter.reset⟩ statements = (⟨m', reporter.reset.reportAll ds⟩, i) := by
      obtain ⟨m', ds, i, h⟩ := regardless_run limits m statements
      exact ⟨m', ds, i, fun reporter => h reporter.reset⟩
    simp only [submit_of_accepted limits hx]
    split
    · split
      · exact hrun _
      · exact ⟨m, [], some .tooDeep, fun _ => rfl⟩
    · exact hrun m

/-- Sessions that differ in what was written and reported before do the same, and differ in no more afterwards. -/
theorem answer_congr {s t : Session} (h : s.takeOutput.2.machine = t.takeOutput.2.machine) (limits : Limits)
    (x : Submission) : (s.answer limits x).1 = (t.answer limits x).1 ∧
      (s.answer limits x).2.machine = (t.answer limits x).2.machine := by
  obtain ⟨m', ds, i, hsubmit⟩ := regardless_submit limits x s.takeOutput.2.machine
  have hs : s.takeOutput.2.submit limits x.verbose x.source = (⟨m', s.reporter.reset.reportAll ds⟩, i) :=
    hsubmit s.reporter
  have ht : t.takeOutput.2.submit limits x.verbose x.source = (⟨m', t.reporter.reset.reportAll ds⟩, i) := by
    rw [h] at hsubmit
    exact hsubmit t.reporter
  have hsince (r : Reporter) : (r.reset.reportAll ds).since r.diagnostics.size = ds := r.since_reset_reportAll ds
  refine ⟨?_, by simp only [answer, hs, ht]⟩
  simp only [answer, hs, ht, h, Reporter.hadError_reportAll, Reporter.hadRuntimeError_reportAll]
  congr 1
  exact (hsince s.reporter).trans (hsince t.reporter).symm

theorem answers_congr {s t : Session} (h : s.takeOutput.2.machine = t.takeOutput.2.machine) (limits : Limits)
    (xs : List Submission) : s.answers limits xs = t.answers limits xs := by
  cases xs with
  | nil => rfl
  | cons x xs =>
    obtain ⟨hanswer, hmachine⟩ := answer_congr h limits x
    have hemptied : (s.answer limits x).2.takeOutput.2.machine = (t.answer limits x).2.takeOutput.2.machine :=
      congrArg (fun m : Machine => { m with output := "" }) hmachine
    rw [answers, answers, hanswer, answers_congr hemptied limits xs]

/-- What is rejected has its diagnostics reported, and nothing else comes of it. -/
theorem answer_of_rejected {limits : Limits} {x : Submission} (h : x.isAccepted limits.depth = false) (s : Session) :
    (s.answer limits x).1 = ⟨x, s.takeOutput.2.machine, s.takeOutput.2.machine, "",
        (Reading.ofText limits.depth x.source).diagnostics, true, false, none⟩ ∧
      (s.answer limits x).2.machine = s.takeOutput.2.machine := by
  have hsubmit := submit_of_rejected limits h s.takeOutput.2
  have herror := Reading.hadError_reportAll limits.depth x.source s.reporter
  rw [show (Reading.ofText limits.depth x.source).diagnostics.isEmpty = false from h] at herror
  have hruntime : (s.reporter.reset.reportAll (Reading.ofText limits.depth x.source).diagnostics).hadRuntimeError =
      false := by
    rw [Reporter.hadRuntimeError_reportAll, Bool.or_eq_false_iff]
    exact ⟨rfl, List.any_eq_false.2 fun d hd => by simp [Reading.isRuntime_eq_false d hd]⟩
  refine ⟨?_, by simp only [answer, hsubmit]⟩
  simp only [answer, hsubmit]
  congr 1
  exact s.reporter.since_reset_reportAll _

end Session

/-- Without the submissions that are rejected the others do the same, in all that they write, report, leave and hand
on. A rejected one has its diagnostics reported, and leaves the machine as it found it. -/
theorem Session.rejected_leave_no_trace (limits : Limits) (s : Session) (xs : List Submission) :
    (s.answers limits xs).map Answer.submission = xs ∧
      (s.answers limits xs).filter (·.submission.isAccepted limits.depth) =
        s.answers limits (xs.filter (·.isAccepted limits.depth)) ∧
      ∀ a ∈ s.answers limits xs, a.submission.isAccepted limits.depth = false →
        a.stop = a.start ∧ a.output = "" ∧
          a.reported = (Reading.ofText limits.depth a.submission.source).diagnostics ∧ a.hadError ∧
            ¬ a.hadRuntimeError ∧ a.interrupt = none := by
  induction xs generalizing s with
  | nil => exact ⟨rfl, rfl, List.forall_mem_nil _⟩
  | cons x xs ih =>
    obtain ⟨hsubmissions, hfilter, hrejected⟩ := ih (s.answer limits x).2
    refine ⟨?_, ?_, ?_⟩
    · rw [answers, List.map_cons, hsubmissions]
      rfl
    · have hx : (s.answer limits x).1.submission = x := rfl
      rw [answers, List.filter_cons, List.filter_cons, hx, hfilter]
      cases h : x.isAccepted limits.depth with
      | true => rfl
      | false =>
        -- the session behind a rejected submission differs from the one before it in what was reported
        have hmachine := (answer_of_rejected h s).2
        exact answers_congr (congrArg (fun m : Machine => { m with output := "" }) hmachine) limits _
    · intro a ha h
      rcases List.mem_cons.1 ha with rfl | ha
      · rw [(answer_of_rejected (x := x) h s).1]
        exact ⟨rfl, rfl, rfl, rfl, nofun, rfl⟩
      · exact hrejected a ha h

/-- A source of which a statement parses is rejected all the same. -/
example : ((Session.fresh fun _ => 0).answers ⟨20, 9⟩ [⟨"print \"a\"; )", false⟩, ⟨"print \"b\";", false⟩]).map
    Answer.output = ["", "b\n"] := by decide +kernel

end Lox
