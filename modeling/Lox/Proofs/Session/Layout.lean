import Lox.Proofs.Token.Spaced
import Lox.Proofs.Grammar.Unlined
import Lox.Proofs.Evaluation.Unlined
import Lox.Proofs.Session.Unstuck
import Lox.CommandLine
import Mathlib

/-! The layout of a text. Texts with the same tokens, whatever blanks, comments and line breaks stand between them,
parse to the same trees and run alike; only the lines differ that are told of their tokens. -/

namespace Lox

theorem Token.map_unlined_eq {ts us : List Token} (h : ts.map content = us.map content) :
    ts.map unlined = us.map unlined := by
  have hcontent : unlined = (fun c : TokenKind × String × Literal => ⟨c.1, c.2.1, c.2.2, 0⟩) ∘ content := rfl
  rw [hcontent, ← List.map_map, ← List.map_map, h]

/-! Reading -/

theorem Program.unlined_eq {ts us : List Token} (depth : Nat) (h : ts.map Token.unlined = us.map Token.unlined) :
    (ofTokens depth ts).statements.map Stmt.unlined = (ofTokens depth us).statements.map Stmt.unlined ∧
      (ofTokens depth ts).errors.map ParseError.unlined = (ofTokens depth us).errors.map ParseError.unlined := by
  have hprogram := ofTokens_unlined depth ts
  rw [h, ofTokens_unlined] at hprogram
  injection hprogram with hstatements herrors
  exact ⟨hstatements.symm, herrors.symm⟩

/-- What a text is read as without an error in its tokens. -/
theorem Reading.unlined_eq {a b : String} (depth : Nat) (ha : (Scan.ofText a).errors = [])
    (hb : (Scan.ofText b).errors = [])
    (h : (Scan.ofText a).tokens.map Token.content = (Scan.ofText b).tokens.map Token.content) :
    (ofText depth a).statements.map Stmt.unlined = (ofText depth b).statements.map Stmt.unlined ∧
      (ofText depth a).diagnostics.map Diagnostic.unlined =
        (ofText depth b).diagnostics.map Diagnostic.unlined := by
  obtain ⟨hstatements, herrors⟩ := Program.unlined_eq depth (Token.map_unlined_eq h)
  refine ⟨hstatements, ?_⟩
  have hsaid : ∀ line (es : List ParseError), (es.map (·.diagnostic line)).map Diagnostic.unlined =
      (es.map ParseError.unlined).map fun e => (e.diagnostic 0).unlined := by
    intro line es
    rw [List.map_map, List.map_map]
    exact List.map_congr_left fun e _ => e.unlined_diagnostic line 0
  simp only [ofText, Scan.diagnostics, ha, hb, List.map_nil, List.nil_append, hsaid, herrors]

/-! Running -/

def Reporter.unlined (r : Reporter) : Reporter :=
  { r with diagnostics := r.diagnostics.map Diagnostic.unlined }

theorem Reporter.unlined_report (r : Reporter) (d : Diagnostic) :
    (r.report d).unlined = r.unlined.report d.unlined := by
  simp [report, unlined, Diagnostic.isRuntime_unlined]

theorem Reporter.unlined_reportAll (r : Reporter) (ds : List Diagnostic) :
    (r.reportAll ds).unlined = r.unlined.reportAll (ds.map Diagnostic.unlined) := by
  induction ds generalizing r with
  | nil => rfl
  | cons d ds ih => rw [reportAll, List.foldl_cons, List.map_cons, reportAll, List.foldl_cons,
      ← unlined_report]; exact ih _

/-- A session without lines. -/
def Session.unlined (s : Session) : Session := ⟨s.machine.unlined, s.reporter.unlined⟩

namespace Session

theorem settle_carried {α : Type} (reporter : Reporter) (r : EStateM.Result Interrupt Machine α) :
    settle reporter.unlined (carried Interrupt.unlined Machine.unlined id r) =
      ((settle reporter r).1.unlined, (settle reporter r).2.map Interrupt.unlined) := by
  rcases r with _ | ⟨e | _ | _ | _, m⟩
  · rfl
  · exact Prod.ext (congrArg (Session.mk m.unlined) (Reporter.unlined_report reporter e.diagnostic).symm) rfl
  · rfl
  · rfl
  · rfl

theorem execute_unlined (limits : Limits) (s : Session) (ss : List Stmt) :
    execute limits s.unlined (ss.map Stmt.unlined) =
      ((execute limits s ss).1.unlined, (execute limits s ss).2.map Interrupt.unlined) := by
  unfold execute
  rw [← settle_carried]
  exact congrArg (settle s.reporter.unlined) (Run.unlines_interpret limits ss s.machine)

/-- An interrupt that is handed on tells of no token. -/
theorem settle_unlined {α : Type} (reporter : Reporter) {r : EStateM.Result Interrupt Machine α}
    (h : Run.EndsProperly r) : (settle reporter r).2.map Interrupt.unlined = (settle reporter r).2 := by
  rcases r with _ | ⟨_ | _ | _ | _, _⟩
  · rfl
  · rfl
  · rfl
  · rfl
  · exact h.elim

theorem execute_eq {limits : Limits} {s t : Session} {ss us : List Stmt} (hs : s.unlined = t.unlined)
    (hss : ss.map Stmt.unlined = us.map Stmt.unlined) (hends : Run.EndsProperly (interpret limits ss s.machine))
    (hends' : Run.EndsProperly (interpret limits us t.machine)) :
    (execute limits s ss).1.unlined = (execute limits t us).1.unlined ∧
      (execute limits s ss).2 = (execute limits t us).2 := by
  have h := execute_unlined limits s ss
  rw [hs, hss, execute_unlined] at h
  injection h with hsession hinterrupt
  rw [execute, execute, settle_unlined _ hends, settle_unlined _ hends'] at hinterrupt
  exact ⟨hsession.symm, hinterrupt.symm⟩

end Session

/-- What reports have in common that differ in lines at most. -/
structure Report.Alike (r r' : Report) : Prop where
  code : r.code = r'.code
  stdout : r.stdout = r'.stdout
  stderr : ∃ ds ds', r.stderr = Diagnostic.transcript ds ∧ r'.stderr = Diagnostic.transcript ds' ∧
    ds.map Diagnostic.unlined = ds'.map Diagnostic.unlined

/-- What parses of a text runs properly on a fresh machine. -/
theorem Reading.endsProperly (limits : Limits) (clock : Nat → Float) (source : String) :
    Run.EndsProperly (interpret limits (ofText limits.depth source).statements (Machine.fresh clock)) :=
  Run.endsProperly_interpret limits _ (Program.formed_ofTokens fun _ _ => trivial) _
    (Machine.sound_fresh AnyToken clock)

namespace Report

/-- The report of a session that has run. -/
def ofEnd (e : Session × Option Interrupt) : Report where
  code := match e.2 with
    | some i => .error i
    | none => .ok (if e.1.reporter.hadRuntimeError then .failed else .ok)
  stdout := e.1.machine.output
  stderr := Diagnostic.transcript e.1.reporter.diagnostics.toList

theorem ofRun_eq (limits : Limits) (clock : Nat → Float) (source : String) :
    ofRun limits clock source =
      let diagnostics := (Reading.ofText limits.depth source).diagnostics
      if (Reporter.fresh.reportAll diagnostics).hadError then
        ⟨.ok .badSource, "", Diagnostic.transcript diagnostics⟩
      else ofEnd (Session.runAnyway limits (.fresh clock) source) := rfl

theorem alike_ofEnd {e e' : Session × Option Interrupt} (h : e.1.unlined = e'.1.unlined) (hi : e.2 = e'.2) :
    (ofEnd e).Alike (ofEnd e') := by
  obtain ⟨⟨m, r⟩, i⟩ := e
  obtain ⟨⟨m', r'⟩, i'⟩ := e'
  injection h with hm hr
  have hfailed : r.hadRuntimeError = r'.hadRuntimeError := (congrArg Reporter.hadRuntimeError hr :)
  have hsaid : r.unlined.diagnostics.toList = r'.unlined.diagnostics.toList := by rw [hr]
  simp only [Reporter.unlined, Array.toList_map] at hsaid
  refine ⟨?_, (congrArg Machine.output hm :), _, _, rfl, rfl, hsaid⟩
  dsimp only [ofEnd] at hi ⊢
  rw [hi, hfailed]

end Report

/-- Two texts with the same tokens on whatever lines, and with nothing wrong in them, are read as the same trees
with the same said of them. From a fresh machine they run alike, and leave the same behind. -/
theorem layout_ignored (limits : Limits) (clock : Nat → Float) (a b : String)
    (ha : (Scan.ofText a).errors = []) (hb : (Scan.ofText b).errors = [])
    (h : (Scan.ofText a).tokens.map Token.content = (Scan.ofText b).tokens.map Token.content) :
    let read := Reading.ofText limits.depth a
    let read' := Reading.ofText limits.depth b
    let run := Session.runAnyway limits (Session.fresh clock) a
    let run' := Session.runAnyway limits (Session.fresh clock) b
    read.statements.map Stmt.unlined = read'.statements.map Stmt.unlined ∧
      read.diagnostics.map Diagnostic.unlined = read'.diagnostics.map Diagnostic.unlined ∧
      run.1.unlined = run'.1.unlined ∧ run.2 = run'.2 ∧
      (Report.ofRun limits clock a).Alike (Report.ofRun limits clock b) := by
  intro read read' run run'
  obtain ⟨hstatements, hdiagnostics⟩ := Reading.unlined_eq limits.depth ha hb h
  have hreported : (Reporter.fresh.reportAll read.diagnostics).unlined =
      (Reporter.fresh.reportAll read'.diagnostics).unlined := by
    rw [Reporter.unlined_reportAll, Reporter.unlined_reportAll, hdiagnostics]
  have hsession : Session.unlined ⟨Machine.fresh clock, Reporter.fresh.reportAll read.diagnostics⟩ =
      Session.unlined ⟨Machine.fresh clock, Reporter.fresh.reportAll read'.diagnostics⟩ :=
    congrArg (Session.mk _) hreported
  obtain ⟨hrun, hinterrupt⟩ := Session.execute_eq hsession hstatements (Reading.endsProperly limits clock a)
    (Reading.endsProperly limits clock b)
  refine ⟨hstatements, hdiagnostics, hrun, hinterrupt, ?_⟩
  have hflag : (Reporter.fresh.reportAll read.diagnostics).hadError =
      (Reporter.fresh.reportAll read'.diagnostics).hadError := (congrArg Reporter.hadError hreported :)
  rw [Report.ofRun_eq, Report.ofRun_eq]
  dsimp only
  by_cases herror : (Reporter.fresh.reportAll read'.diagnostics).hadError
  · rw [if_pos (hflag.trans herror), if_pos herror]
    exact ⟨rfl, rfl, _, _, rfl, rfl, hdiagnostics⟩
  · rw [if_neg (hflag ▸ herror), if_neg herror]
    exact Report.alike_ofEnd hrun hinterrupt

/-- A text over two lines, with a comment. -/
def spread : String := "print \"a\" // first\n  - b;"

/-- The same tokens on one line. -/
def packed : String := "print\"a\"-b;"

theorem layout_ignored_spread : (Scan.ofText spread).errors = [] ∧ (Scan.ofText packed).errors = [] ∧
    (Scan.ofText spread).tokens.map Token.content = (Scan.ofText packed).tokens.map Token.content ∧
      (Scan.ofText spread).tokens.map Token.line ≠ (Scan.ofText packed).tokens.map Token.line ∧
        (Report.ofRun ⟨9, 9⟩ (fun _ => 0) spread).Alike (Report.ofRun ⟨9, 9⟩ (fun _ => 0) packed) := by
  have hspread : (Scan.ofText spread).errors = [] := by cbv
  have hpacked : (Scan.ofText packed).errors = [] := by cbv
  have hsame : (Scan.ofText spread).tokens.map Token.content = (Scan.ofText packed).tokens.map Token.content := by
    cbv
  have hlines : (Scan.ofText spread).tokens.map Token.line = [1, 1, 2, 2, 2] := by cbv
  have hline : (Scan.ofText packed).tokens.map Token.line = [1, 1, 1, 1, 1] := by cbv
  refine ⟨hspread, hpacked, hsame, ?_, (layout_ignored ⟨9, 9⟩ (fun _ => 0) spread packed hspread hpacked hsame).2.2.2.2⟩
  rw [hlines, hline]
  decide

end Lox
