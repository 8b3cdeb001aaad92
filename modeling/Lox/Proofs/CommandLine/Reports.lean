import Lox.CommandLine
import Lox.Proofs.Session.Stopping
import Lox.Proofs.Session.Rejected

/-! What a run from the command line reports. A source with something wrong in it is answered with its diagnostics and
is not run. Any other is run to its end, and only a failure is reported of that. -/

namespace Lox
namespace Report

variable {limits : Limits} {clock : Nat → Float} {source : String}

theorem ofRun_of_rejected (clock : Nat → Float) (h : (Reading.ofText limits.depth source).diagnostics ≠ []) :
    ofRun limits clock source =
      ⟨.ok .badSource, "", Diagnostic.transcript (Reading.ofText limits.depth source).diagnostics⟩ := by
  have herror := Reading.hadError_reportAll limits.depth source (Session.fresh clock).reporter
  rw [List.isEmpty_eq_false_iff.2 h] at herror
  exact if_pos herror

theorem ofTree_of_rendered {text : String}
    (h : renderProgram limits.depth (Reading.ofText limits.depth source).statements = .ok text) :
    ofTree limits source =
      ⟨.ok (if (Reading.ofText limits.depth source).diagnostics.isEmpty then .ok else .badSource), text ++ "\n",
        Diagnostic.transcript (Reading.ofText limits.depth source).diagnostics⟩ := by
  simp only [ofTree, h]

theorem ofTree_of_unrendered {e : Unprintable}
    (h : renderProgram limits.depth (Reading.ofText limits.depth source).statements = .error e) :
    ofTree limits source =
      ⟨.error .tooDeep, "", Diagnostic.transcript (Reading.ofText limits.depth source).diagnostics⟩ := by
  simp only [ofTree, h]

/-- What is reported of a run by its end. -/
def ofResult : EStateM.Result Interrupt Machine Unit → Report
  | .ok _ m => ⟨.ok .ok, m.output, ""⟩
  | .error (.failed e) m => ⟨.ok .failed, m.output, Diagnostic.transcript [e.diagnostic]⟩
  | .error i m => ⟨.error i, m.output, ""⟩

theorem ofRun_of_accepted (clock : Nat → Float) (h : (Reading.ofText limits.depth source).diagnostics = []) :
    ofRun limits clock source =
      ofResult (interpret limits (Reading.ofText limits.depth source).statements (Machine.fresh clock)) := by
  simp only [ofRun, h, Session.execute, Session.fresh]
  rcases interpret limits (Reading.ofText limits.depth source).statements (Machine.fresh clock) with
    _ | ⟨_ | _ | _ | _, _⟩ <;> rfl

theorem ofResult_code_of_failed {r : EStateM.Result Interrupt Machine Unit} (h : (ofResult r).code = .ok .failed) :
    ∃ e m, r = .error (.failed e) m := by
  rcases r with _ | ⟨e | _ | _ | _, m⟩
  case error.failed => exact ⟨e, m, rfl⟩
  all_goals cases h

theorem ofResult_code_of_ok {r : EStateM.Result Interrupt Machine Unit} {code : ExitCode}
    (h : (ofResult r).code = .ok code) (hcode : code ≠ .failed) : ∃ m, r = .ok () m ∧ code = .ok := by
  rcases r with m | ⟨e | _ | _ | _, m⟩
  case ok => exact ⟨_, rfl, by cases h; rfl⟩
  case error.failed => exact absurd (by cases h; rfl) hcode
  all_goals cases h

end Report

/-- The code, the output and the diagnostics of a run from the command line belong together. Diagnostics of the source
are all there is if there are any. Without them a failure is reported alone, behind what was written up to it: what
the statements before the failing one wrote, and what that one wrote until it failed, whatever stands behind it. Else
nothing is reported. A listing of the tree has its diagnostics by the same rule, and nothing is run for it. -/
theorem Report.codes_fit (limits : Limits) (clock : Nat → Float) (source : String) :
    let scan := Scan.ofText source
    let program := Program.ofTokens limits.depth scan.tokens
    let said := scan.diagnostics ++ program.errors.map (·.diagnostic scan.lastLine)
    let run := interpret limits program.statements (Machine.fresh clock)
    let report := ofSource limits clock .run source
    let listing := ofSource limits clock .ast source
    (said = [] ↔ scan.errors = [] ∧ program.errors = []) ∧
    (report.code = .ok .badSource ↔ said ≠ []) ∧
    (said ≠ [] → report = ⟨.ok .badSource, "", Diagnostic.transcript said⟩) ∧
    (report.code = .ok .failed ↔ said = [] ∧ ∃ e m, run = .error (.failed e) m) ∧
    (∀ e m, said = [] → run = .error (.failed e) m →
      report = ⟨.ok .failed, m.output, Diagnostic.transcript [.runtime e.token.line e.problem.message]⟩ ∧
        ∃ before s behind m₁, program.statements = before ++ s :: behind ∧
          interpret limits before (Machine.fresh clock) = .ok () m₁ ∧
          execute limits.rounds limits.depth s m₁ = .error (.failed e) m ∧ m₁.Continues m ∧
          ∀ behind', interpret limits (before ++ s :: behind') (Machine.fresh clock) = run) ∧
    (∀ code, report.code = .ok code → code ≠ .badSource → code ≠ .failed →
      said = [] ∧ ∃ m, run = .ok () m ∧ report = ⟨.ok .ok, m.output, ""⟩) ∧
    (∀ code, listing.code = .ok code → ∃ text, renderProgram limits.depth program.statements = .ok text ∧
      listing = ⟨.ok (if said.isEmpty then .ok else .badSource), text ++ "\n", Diagnostic.transcript said⟩) ∧
    ∀ rounds clock', ofSource ⟨limits.depth, rounds⟩ clock' .ast source = listing := by
  intro scan program said run report listing
  have hsaid : said = [] ↔ scan.errors = [] ∧ program.errors = [] := by
    simp [said, Scan.diagnostics]
  have hrejected (h : said ≠ []) : report = ⟨.ok .badSource, "", Diagnostic.transcript said⟩ :=
    ofRun_of_rejected clock h
  have haccepted (h : said = []) : report = ofResult run := ofRun_of_accepted clock h
  refine ⟨hsaid, ⟨fun h hnone => ?_, fun h => by rw [hrejected h]⟩, hrejected, ⟨fun h => ?_, ?_⟩,
    fun e m hnone hrun => ?_, fun code hcode hsource hfailed => ?_, fun code hcode => ?_, fun rounds clock' => rfl⟩
  · rw [haccepted hnone] at h
    obtain ⟨m, -, hok⟩ := ofResult_code_of_ok h nofun
    cases hok
  · by_cases hnone : said = []
    · rw [haccepted hnone] at h
      exact ⟨hnone, ofResult_code_of_failed h⟩
    · rw [hrejected hnone] at h
      cases h
  · rintro ⟨hnone, e, m, hrun⟩
    rw [haccepted hnone, hrun]
    rfl
  · obtain ⟨before, s, behind, m₁, hss, hbefore, hs⟩ := Run.exists_stop hrun
    have hcontinues := (Run.continues_evaluate_execute limits.rounds limits.depth).2 s m₁
    unfold Run.after at hcontinues
    rw [hs] at hcontinues
    refine ⟨by rw [haccepted hnone, hrun]; rfl, before, s, behind, m₁, hss, hbefore, hs, hcontinues, fun behind' => ?_⟩
    rw [hrun, Run.interpret_stops hbefore hs]
  · by_cases hnone : said = []
    · rw [haccepted hnone] at hcode ⊢
      obtain ⟨m, hrun, -⟩ := ofResult_code_of_ok hcode hfailed
      exact ⟨hnone, m, hrun, by rw [hrun]; rfl⟩
    · rw [hrejected hnone] at hcode
      exact absurd (by cases hcode; rfl) hsource
  · cases htext : renderProgram limits.depth program.statements with
    | ok text => exact ⟨text, rfl, ofTree_of_rendered htext⟩
    | error e =>
      rw [show listing = _ from ofTree_of_unrendered htext] at hcode
      cases hcode

/-- Three statements, of which the second one fails. -/
def failingSecond : String := "print \"a\"; print -\"b\"; print \"c\";"

theorem Report.codes_fit_failingSecond :
    let report := ofSource ⟨9, 9⟩ (fun _ => 0) .run failingSecond
    report.code = .ok .failed ∧ report.stdout = "a\n" ∧ report.stderr = "Operand must be a number.\n[line 1]\n" ∧
      ∃ e m, interpret ⟨9, 9⟩ (Reading.ofText 9 failingSecond).statements (Machine.fresh fun _ => 0) =
        .error (.failed e) m ∧ report.stdout = m.output := by
  intro report
  obtain ⟨-, -, -, hfailed, hreport, -⟩ := Report.codes_fit ⟨9, 9⟩ (fun _ => 0) failingSecond
  have hnumber : (report.code.map ExitCode.toNat).toOption = some 70 := by decide +kernel
  have hcode : report.code = .ok .failed := by
    rcases hc : report.code with i | c <;> rw [hc] at hnumber
    · cases hnumber
    · cases c <;> first | rfl | cases hnumber
  obtain ⟨hnone, e, m, hrun⟩ := hfailed.1 hcode
  exact ⟨hcode, by decide +kernel, by decide +kernel, e, m, hrun, congrArg Report.stdout (hreport e m hnone hrun).1⟩

end Lox
