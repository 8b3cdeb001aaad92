import Lox.Proofs.CommandLine.Reports
import Lox.Proofs.Evaluation.Contained
import Lox.Proofs.Session.Unstuck

/-! Runs from the command line that end without a code. A program that goes on forever has none, and neither has one
with a tree that is nested beyond the limit outside of all calls. What meets the limit while it is read or in a call is
reported like any other error, so everything else has a code. -/

namespace Lox
namespace Report

variable {limits : Limits} {clock : Nat → Float} {source : String}

theorem ofResult_code_of_error {r : EStateM.Result Interrupt Machine Unit} {i : Interrupt}
    (h : (ofResult r).code = .error i) : (∃ m, r = .error i m) ∧ ∀ e, i ≠ .failed e := by
  rcases r with ⟨_, m⟩ | ⟨e | _ | _ | _, m⟩ <;> simp only [ofResult, reduceCtorEq, Except.error.injEq] at h
  all_goals
    subst h
    exact ⟨⟨m, rfl⟩, by simp⟩

/-- Without a code it is the room or the turns that a run of a program was short of, and the room only if one of its
statements takes more of it than there is, whatever it calls. -/
theorem ofRun_code_of_error {i : Interrupt} (h : (ofRun limits clock source).code = .error i) :
    i = .unfinished ∨ i = .tooDeep ∧ ∃ s ∈ (Reading.ofText limits.depth source).statements, ¬ s.Fits limits.depth := by
  by_cases hnone : (Reading.ofText limits.depth source).diagnostics = []
  · rw [ofRun_of_accepted clock hnone] at h
    obtain ⟨⟨m, hrun⟩, hfailed⟩ := ofResult_code_of_error h
    have hends := Run.endsProperly_interpret limits (Reading.ofText limits.depth source).statements
      (Program.formed_ofTokens (P := AnyToken) fun _ _ => trivial) _ (Machine.reachable_fresh AnyToken clock).sound
    rw [hrun] at hends
    cases i with
    | failed e => exact absurd rfl (hfailed e)
    | tooDeep =>
      refine .inr ⟨rfl, ?_⟩
      by_contra hfits
      push Not at hfits
      exact Run.contained_interpret hfits _ m hrun
    | unfinished => exact .inl rfl
    | stuck s => exact hends.elim
  · rw [ofRun_of_rejected clock hnone] at h
    cases h

theorem ofRun_code_toNat {code : ExitCode} (h : (ofRun limits clock source).code = .ok code) :
    code.toNat ∈ [0, 65, 70] := by
  by_cases hnone : (Reading.ofText limits.depth source).diagnostics = []
  · rw [ofRun_of_accepted clock hnone] at h
    by_cases hfailed : code = .failed
    · rw [hfailed]
      decide
    · obtain ⟨-, -, rfl⟩ := ofResult_code_of_ok h hfailed
      decide
  · rw [ofRun_of_rejected clock hnone] at h
    cases h
    decide

/-- A tree that was read is listed unless it is too high. -/
theorem ofTree_eq (limits : Limits) (source : String) :
    let reading := Reading.ofText limits.depth source
    ofTree limits source =
      if ∀ s ∈ reading.statements, s.outline.height ≤ limits.depth then
        ⟨.ok (if reading.diagnostics.isEmpty then .ok else .badSource), Stmt.lines reading.statements ++ "\n",
          Diagnostic.transcript reading.diagnostics⟩
      else ⟨.error .tooDeep, "", Diagnostic.transcript reading.diagnostics⟩ := by
  intro reading
  have hknown : ∀ s ∈ reading.statements, s.unknownKind? = none := fun s hs =>
    (Program.formed_ofTokens (P := AnyToken) (fun _ _ => trivial) s hs).unknownKind?
  have hrender := renderProgram_eq hknown limits.depth
  by_cases hlow : ∀ s ∈ reading.statements, s.outline.height ≤ limits.depth
  · rw [if_pos hlow] at hrender ⊢
    exact ofTree_of_rendered hrender
  · rw [if_neg hlow] at hrender ⊢
    exact ofTree_of_unrendered hrender

theorem exists_too_high_of_ofTree {i : Interrupt} (h : (ofTree limits source).code = .error i) :
    i = .tooDeep ∧ ∃ s ∈ (Reading.ofText limits.depth source).statements, limits.depth < s.outline.height := by
  rw [ofTree_eq] at h
  by_cases hlow : ∀ s ∈ (Reading.ofText limits.depth source).statements, s.outline.height ≤ limits.depth
  · rw [if_pos hlow] at h
    cases h
  · rw [if_neg hlow] at h
    push Not at hlow
    exact ⟨(Except.error.inj h).symm, hlow⟩

end Report

/-- Where a run from the command line has no code. A program that nests too much while it is read is rejected, one that
nests too much in its calls fails at the call. A statement that is nested beyond the limit outside of its calls is
neither: its run ends without a code, and so does the listing of one that is too high. There is no other such end, for
a program that goes on forever has no end. -/
theorem Report.codeless_only_if_nested (limits : Limits) (clock : Nat → Float) (source : String) :
    let scan := Scan.ofText source
    let program := Program.ofTokens limits.depth scan.tokens
    let said := scan.diagnostics ++ program.errors.map (·.diagnostic scan.lastLine)
    let run := interpret limits program.statements (Machine.fresh clock)
    let report := ofSource limits clock .run source
    let listing := ofSource limits clock .ast source
    (∀ code, report.code = .ok code → code.toNat ∈ [0, 65, 70]) ∧
    (∀ e ∈ program.errors, e.problem = .nesting →
      .atToken (e.place.headD (.ending scan.lastLine)) "Too much nesting." ∈ said ∧
        report = ⟨.ok .badSource, "", Diagnostic.transcript said⟩) ∧
    (∀ paren m, said = [] → run = .error (.failed ⟨paren, .stackOverflow⟩) m →
      report = ⟨.ok .failed, m.output, Diagnostic.transcript [.runtime paren.line "Stack overflow."]⟩) ∧
    (∀ i, report.code = .error i →
      i = .unfinished ∨ i = .tooDeep ∧ ∃ s ∈ program.statements, ¬ s.Fits limits.depth) ∧
    (∀ code, listing.code = .ok code → code.toNat ∈ [0, 65]) ∧
    ((∃ i, listing.code = .error i) ↔ ∃ s ∈ program.statements, limits.depth < s.outline.height) := by
  intro scan program said run report listing
  refine ⟨fun _ => ofRun_code_toNat, fun e he hnesting => ?_, fun paren m hnone hrun => ?_,
    fun _ => ofRun_code_of_error, fun code hcode => ?_, fun ⟨i, hi⟩ => (exists_too_high_of_ofTree hi).2,
    fun ⟨s, hs, hhigh⟩ => ⟨.tooDeep, ?_⟩⟩
  · have hmem : e.diagnostic scan.lastLine ∈ said := List.mem_append_right _ (List.mem_map_of_mem he)
    refine ⟨?_, ofRun_of_rejected clock (List.ne_nil_of_mem hmem)⟩
    rw [ParseError.diagnostic, hnesting] at hmem
    exact hmem
  · rw [show report = ofResult run from ofRun_of_accepted clock hnone, hrun]
    rfl
  · rw [show listing = _ from ofTree_eq limits source] at hcode
    split at hcode
    · cases hcode
      split <;> decide
    · cases hcode
  · rw [show listing = _ from ofTree_eq limits source, if_neg fun hlow => (hlow s hs).not_gt hhigh]

/-- A sum that is nested deeper than nine levels, though not while it is read. -/
def longSum : String := "a + a + a + a + a + a + a + a + a + a;"

/-- Nothing is wrong with the sum, but within nine levels it can neither be run nor listed, and neither has a code. -/
theorem Report.codeless_longSum : (Reading.ofText 9 longSum).diagnostics = [] ∧
    ∀ mode ∈ [Mode.run, Mode.ast], ∀ code, (ofSource ⟨9, 9⟩ (fun _ => 0) mode longSum).code ≠ .ok code := by
  have hread : (Reading.ofText 9 longSum).diagnostics.isEmpty = true := by decide +kernel
  have hrun : (ofSource ⟨9, 9⟩ (fun _ => 0) .run longSum).code.isOk = false := by decide +kernel
  have hlisting : (ofSource ⟨9, 9⟩ (fun _ => 0) .ast longSum).code.isOk = false := by decide +kernel
  refine ⟨List.isEmpty_iff.1 hread, fun mode hmode code hcode => ?_⟩
  simp only [List.mem_cons, List.not_mem_nil, or_false] at hmode
  rcases hmode with rfl | rfl
  · rw [hcode] at hrun
    cases hrun
  · rw [hcode] at hlisting
    cases hlisting

end Lox
