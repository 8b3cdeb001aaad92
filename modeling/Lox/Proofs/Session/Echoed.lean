import Lox.Proofs.Session.Limits
import Lox.Proofs.Grammar.Soundness
import Lox.Proofs.Token.Spaced

/-! Expressions that stand alone. What is written of one is what a `print` before it would write: the text with the
word before it is read as that statement, and runs alike in every session. -/

namespace Lox

/-- A `print` before a text is scanned as one token more. -/
theorem Scan.ofText_print (source : String) :
    ofText ("print " ++ source) =
      { ofText source with tokens := ⟨.kwPrint, "print", .nil, 1⟩ :: (ofText source).tokens } := by
  have hlegal : (Item.token .kwPrint ['p', 'r', 'i', 'n', 't']).Legal :=
    .word (by decide) (by simp [Item.isAlphaNumeric, Item.isAlpha]) (Item.isWordKind_iff.2 (by decide))
  have hcut := hlegal.cut_spaced rfl (s := ' ') (by decide) (.inr (by simp)) source.toList
  have hitems : Item.ofChars ("print " ++ source).toList =
      .token .kwPrint ['p', 'r', 'i', 'n', 't'] :: .blank ' ' :: Item.ofChars source.toList := by
    have hchars : ("print " ++ source).toList = 'p' :: (['r', 'i', 'n', 't'] ++ ' ' :: source.toList) :=
      String.toList_append
    rw [hchars, Item.ofChars, hcut, Item.ofChars, Item.cut_space (by decide)]
  rw [ofText, hitems]
  rfl

/-- No other declaration stands for an expression that is evaluated. -/
theorem Derivation.exists_exprStatement {d : Derivation .declaration} {e : Expr} (h : d.value = .expression e) :
    ∃ inner semicolon, d = .statement (.expression (.exprStatement inner semicolon)) ∧ inner.value = e := by
  cases d with
  | statement d =>
    cases d with
    | expression d =>
      cases d with
      | exprStatement inner semicolon => exact ⟨inner, semicolon, rfl, Stmt.expression.inj h⟩
    | forLoop _ _ start condition _ increment =>
      -- a loop alone, or in a block with what it starts with
      simp only [value, startedBy, loopOf] at h
      cases hs : start.value <;> cases hi : increment.value <;> simp [hs, hi] at h
    | print | returning | nested | branch | whileLoop => cases h
  | «variable» d =>
    obtain ⟨⟩ := d
    cases h
  | funDeclaration _ d =>
    obtain ⟨⟩ := d
    cases h
  | classDeclaration => cases h

/-- With a `print` before it an expression statement is read as the statement that prints the same expression. -/
theorem Program.ofTokens_print {depth : Nat} {ts : List Token} {e : Expr}
    (h : ofTokens depth ts = ⟨[.expression e], []⟩) (keyword : Terminal [.kwPrint]) :
    ofTokens depth (keyword.1 :: ts) = ⟨[.print e], []⟩ := by
  obtain ⟨d, rfl, hn, he, hnone, hvalue⟩ := exists_declaration h
  obtain ⟨inner, semicolon, rfl, rfl⟩ := Derivation.exists_exprStatement hvalue
  let printed : Derivation (.many .declaration) :=
    .next (.statement (.print keyword inner semicolon)) .nothing
  have hnesting : printed.nesting ≤ depth := Nat.max_le.2 ⟨hn, Nat.zero_le depth⟩
  obtain ⟨hstatements, herrors⟩ := ofTokens_derivation printed hnesting ⟨he, trivial⟩
  have hquiet : (ofTokens depth printed.tokens).errors = [] := by
    refine List.map_eq_nil_iff.1 ((herrors 0).trans ?_)
    exact (List.append_nil _).trans hnone
  have htokens : printed.tokens = keyword.1 :: (inner.tokens ++ [semicolon.1]) := List.append_nil _
  show ofTokens depth (keyword.1 :: (inner.tokens ++ [semicolon.1])) = _
  rw [← htokens]
  exact congrArg₂ Program.mk hstatements hquiet

theorem Reading.ofText_print {depth : Nat} {source : String} {e : Expr}
    (h : ofText depth source = ⟨[.expression e], []⟩) : ofText depth ("print " ++ source) = ⟨[.print e], []⟩ := by
  obtain ⟨hscanned, hparsed⟩ := List.append_eq_nil_iff.1 (congrArg diagnostics h)
  have hprogram : Program.ofTokens depth (Scan.ofText source).tokens = ⟨[.expression e], []⟩ :=
    congrArg₂ Program.mk (congrArg statements h) (List.map_eq_nil_iff.1 hparsed)
  have hprinted := Program.ofTokens_print hprogram ⟨⟨.kwPrint, "print", .nil, 1⟩, by decide⟩
  simp only [ofText, Scan.ofText_print, hprinted]
  exact congrArg (Reading.mk [.print e]) ((List.append_nil _).trans hscanned)

namespace Session

variable {depth rounds : Nat}

/-- A value is written alike by the session and by a statement, which takes one level more. -/
theorem run_print (s : Session) (e : Expr) :
    s.run ⟨depth + 1, rounds⟩ [.print e] = s.run ⟨depth, rounds⟩ [.expression e] := by
  have hexecute : Lox.execute rounds (depth + 1) (.print e) =
      evaluate rounds depth e >>= fun v => modify (fun m => m.write (m.display v)) >>= fun _ => pure .normal := rfl
  have htask : task ⟨depth + 1, rounds⟩ [.print e] = task ⟨depth, rounds⟩ [.expression e] := by
    simp only [task, interpret, hexecute, bind_assoc, pure_bind]
    rfl
  rw [run_eq, run_eq, htask]

/-- A source in which nothing is wrong is run as it is read. -/
theorem submit_of_reading {limits : Limits} {source : String} {ss : List Stmt}
    (h : Reading.ofText limits.depth source = ⟨ss, []⟩) (s : Session) :
    s.submit limits false source = run limits ⟨s.machine, s.reporter.reset⟩ ss := by
  have haccepted : Submission.isAccepted limits.depth ⟨source, false⟩ :=
    Submission.isAccepted_iff.2 (congrArg Reading.diagnostics h)
  rw [submit_of_accepted limits haccepted, h]
  rfl

/-- A source that is one expression does what it does with a `print` before it, if that does not meet the limit. What
is written and reported is the same, and so is all that is left behind. -/
theorem echoes_as_printed (limits : Limits) (source : String) (e : Expr)
    (h : Reading.ofText limits.depth source = ⟨[.expression e], []⟩) :
    Reading.ofText limits.depth ("print " ++ source) = ⟨[.print e], []⟩ ∧
      ∀ s : Session, ¬ Exhausts s.reporter.diagnostics.size (s.submit limits false ("print " ++ source)) →
        s.submit limits false source = s.submit limits false ("print " ++ source) := by
  have hprinted := Reading.ofText_print h
  refine ⟨hprinted, fun s hquiet => ?_⟩
  obtain ⟨depth, rounds⟩ := limits
  rw [submit_of_reading hprinted] at hquiet
  rw [submit_of_reading h, submit_of_reading hprinted]
  cases depth with
  | zero => exact absurd (.inl rfl) hquiet
  | succ depth =>
    rw [run_print] at hquiet ⊢
    exact run_deepens (Nat.le_succ depth) hquiet

/-- `(clock = "a") + y;`, with the sum on a second line. -/
def halfway : Expr :=
  .binary (.grouping (.assign ⟨.identifier, "clock", .nil, 1⟩ (.literal (.string "a")))) ⟨.plus, "+", .nil, 2⟩
    (.variable ⟨.identifier, "y", .nil, 2⟩)

theorem echoes_as_printed_halfway :
    let limits : Limits := ⟨20, 9⟩
    let source := "(clock = \"a\")\n+ y;"
    let s := fresh fun _ => 0
    Reading.ofText 20 source = ⟨[.expression halfway], []⟩ ∧
      Reading.ofText 20 ("print " ++ source) = ⟨[.print halfway], []⟩ ∧
      s.submit limits false source = s.submit limits false ("print " ++ source) ∧
      (s.submit limits false source).1.reporter.hadRuntimeError := by
  intro limits source s
  have hscan : Scan.ofText source =
      ⟨[⟨.leftParen, "(", .nil, 1⟩, ⟨.identifier, "clock", .nil, 1⟩, ⟨.equal, "=", .nil, 1⟩,
        ⟨.string, "\"a\"", .string "a", 1⟩, ⟨.rightParen, ")", .nil, 1⟩, ⟨.plus, "+", .nil, 2⟩,
        ⟨.identifier, "y", .nil, 2⟩, ⟨.semicolon, ";", .nil, 2⟩], [], 2⟩ := by
    cbv
  have hreading : Reading.ofText 20 source = ⟨[.expression halfway], []⟩ := by
    rw [Reading.ofText, hscan]
    rfl
  have hquiet : ¬ Exhausts s.reporter.diagnostics.size (s.takeOutput.2.submit limits false ("print " ++ source)) := by
    rw [← isExhausted_answer (x := ⟨"print " ++ source, false⟩)]
    decide +kernel
  have hbegun : s.takeOutput.2 = s := rfl
  rw [hbegun] at hquiet
  obtain ⟨hprinted, hsame⟩ := echoes_as_printed limits source halfway hreading
  exact ⟨hreading, hprinted, hsame s hquiet, by decide +kernel⟩

end Session

end Lox
