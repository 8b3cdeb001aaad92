import Lox.Proofs.Evaluation.ForLoop
import Lox.Proofs.Session.Locals
import Lox.Proofs.Carries

/-! Every `for` that the parser accepts runs as the loop that its clauses say. The statement makes scopes that the loop
does not make and does without the one that the loop has, and all of these stay empty: that a closure may lie in one
of them is the only difference that is left behind, and no program can tell. -/

namespace Lox

open Machine Run

/-- Two machines that came from `m` and are the same to every program. The scopes that `m` had are paired each with
itself, what was closed over since lies in scopes that are paired, and whatever runs next does the same in both. -/
structure Machine.AlikeSince (m m₁ m₁' : Machine) : Prop where
  stands : m₁.current = m.current ∧ m₁'.current = m.current
  output : m₁'.output = m₁.output
  bindings : ∀ s < m.scopes.size, m₁'.scopes.bindings s = m₁.scopes.bindings s
  instances : m₁'.instances = m₁.instances
  classes : m₁'.classes = m₁.classes
  closures : ∃ T : Pairing, (∀ s < m.scopes.size, T s s) ∧ m₁.Alike T m₁' ∧
    ∀ limits ss, Matches T m₁ m₁' Same (interpret limits ss) (interpret limits ss)

/-- Two runs from one machine that give the same, or fail in the same way, and leave alike machines. -/
inductive Run.EndsAs (m : Machine) : EStateM.Result Interrupt Machine Completion →
    EStateM.Result Interrupt Machine Completion → Prop where
  | ok (c : Completion) {m₁ m₁' : Machine} : m.AlikeSince m₁ m₁' → EndsAs m (.ok c m₁) (.ok c m₁')
  | error (i : Interrupt) {m₁ m₁' : Machine} : m.AlikeSince m₁ m₁' → EndsAs m (.error i m₁) (.error i m₁')

namespace Run

theorem agrees_interpret (limits : Limits) (ss : List Stmt) : Agrees Paired (interpret limits ss) := by
  induction ss with
  | nil => exact agrees_pure _
  | cons s ss ih =>
    have hs := (agrees_evaluate_execute AnyToken limits.rounds limits.depth).2 Paired place_paired s
      (admits_paired AnyToken s)
    exact hs.bind place_paired fun _ => ih

theorem alikeSince {T : Pairing} {m m₁ m₁' : Machine} (hm : m.Linked)
    (hw : Widens (.upTo m.scopes.size) m m T m₁ m₁') (ha : m₁.Alike T m₁') : m.AlikeSince m₁ m₁' := by
  have hself (s : ScopeId) (hs : s < m.scopes.size) : T s s := hw.scopes.keeps ⟨rfl, hs⟩
  have hpaired : Paired T m₁ m₁' := by
    unfold Paired
    rw [hw.left, hw.right]
    exact hself m.current hm.current
  exact ⟨⟨hw.left, hw.right⟩, ha.output, fun s hs => ha.scopes.bindings (hself s hs), ha.instances, ha.classes, T, hself,
    ha, fun limits ss => agrees_interpret limits ss ha hpaired⟩

/-- Runs that do the same wherever machines face each other do so from one machine. -/
theorem AgreesWith.endsAs {p q : Run Completion} (h : AgreesWith Facing p q) {m : Machine} (hm : m.Linked) :
    EndsAs m (p m) (q m) := by
  have hends := h hm.alike (.pair ⟨rfl, hm.current⟩)
  unfold Matches at hends
  generalize p m = x, q m = y at hends
  cases hends with
  | @ok _ c _ _ _ hw ha hc =>
    cases hc
    exact .ok c (alikeSince hm hw ha)
  | error hw ha => exact .error _ (alikeSince hm hw ha)

theorem EndsAs.exhausted {m : Machine} {x y : EStateM.Result Interrupt Machine Completion} (h : EndsAs m x y) :
    Exhausted x ↔ Exhausted y := by
  cases h with
  | ok c => exact iff_of_false (not_exhausted_ok c _) (not_exhausted_ok c _)
  | error i => rw [exhausted_error, exhausted_error]

end Run

namespace ForLoop

/-- Reads the clauses and the body, one after the other. -/
def read (expression : Parser Expr) (statement : Parser Stmt) : Parser ForLoop := do
  let _ ← Parser.expect .leftParen .forParen
  let initializer ← Parser.loopStart expression
  let condition ← Parser.unlessAt (Parser.nextIs .semicolon) expression
  let _ ← Parser.expect .semicolon .forCondition
  let increment ← Parser.unlessAt (Parser.nextIs .rightParen) expression
  let _ ← Parser.expect .rightParen .forEnd
  return ⟨initializer, condition, increment, ← statement⟩

theorem forStatement_eq (expression : Parser Expr) (statement : Parser Stmt) :
    Parser.forStatement expression statement = ForLoop.statement <$> read expression statement := by
  unfold Parser.forStatement read
  simp only [map_bind, map_pure]
  rfl

theorem statement_for (n : Nat) {t : Token} (ht : t.kind = .kwFor) (ts : List Token) (errors : Array ParseError) :
    Parser.statement (n + 1) ⟨t :: ts, errors⟩ =
      Parser.forStatement (Parser.expression n) (Parser.statement n) ⟨ts, errors⟩ := by
  have haccept : Parser.accept [.kwFor, .kwIf, .kwPrint, .kwReturn, .kwWhile, .leftBrace] ⟨t :: ts, errors⟩ =
      .ok (some t) ⟨ts, errors⟩ := by
    unfold Parser.accept
    simp [ht]
  conv => lhs; unfold Parser.statement
  rw [bind_of_ok haccept]
  simp only [ht]

/-- Nothing is read before the condition but a declaration of a variable or an expression. -/
theorem yields_loopStart {P : Token → Prop} {e : Parser Expr} (he : Parser.Yields P e (Expr.Parsed P)) :
    Parser.Yields P (Parser.loopStart e) fun o =>
      ∀ s ∈ o, (∃ name value, s = .var name value) ∨ ∃ e, s = .expression e := by
  refine (Parser.yields_accept [.semicolon, .kwVar]).bind fun o _ => ?_
  cases o with
  | none =>
    refine Parser.Yields.map (he.bind fun e _ => (Parser.yields_expect .semicolon .expressionEnd).bind fun _ _ =>
      Parser.yields_pure _ fun s hs => ?_)
    exact .inr ⟨e, (Option.some.inj hs).symm⟩
  | some t =>
    dsimp only
    split
    · refine Parser.Yields.map ((Parser.yields_expect .identifier .variableName).bind fun name _ =>
        (Parser.yields_behind [.equal] he).bind fun o _ => (Parser.yields_expect .semicolon .variableEnd).bind fun _ _ =>
          Parser.yields_pure _ fun s hs => ?_)
      exact .inl ⟨name, o.map Prod.snd, (Option.some.inj hs).symm⟩
    · exact Parser.yields_pure none nofun

theorem yields_read (n : Nat) :
    Parser.Yields AnyToken (read (Parser.expression n) (Parser.statement n)) (ForLoop.Formed AnyToken) := by
  have he := (Parser.yields_expressions AnyToken n).1
  refine (Parser.yields_expect .leftParen .forParen).bind fun _ _ => (yields_loopStart he).bind fun _ hi => ?_
  refine (Parser.yields_unlessAt (Parser.yields_nextIs .semicolon) he).bind fun _ _ => ?_
  refine (Parser.yields_expect .semicolon .forCondition).bind fun _ _ => ?_
  refine (Parser.yields_unlessAt (Parser.yields_nextIs .rightParen) he).bind fun _ _ => ?_
  refine (Parser.yields_expect .rightParen .forEnd).bind fun _ _ => ?_
  exact (Parser.yields_statements AnyToken n).2.bind fun _ hb => Parser.yields_pure _ ⟨hi, hb.1.formed, hb.2⟩

/-- Of what the parser accepts behind the word `for` it reads the clauses and the body of a loop, and builds its
statement. From any machine without a reference to nothing, as all are that programs come to, the statement ends as the
loop does, with the same limits for the same parts. Where the limit of the nesting is not met, it may be the same for
all parts, so that each ends if the other does and in no other way. -/
theorem runs_as_loop :
    (∀ n (t : Token) ts errors, t.kind = .kwFor → ∀ s c, Parser.statement (n + 1) ⟨t :: ts, errors⟩ = .ok s c →
      ∃ l : ForLoop, read (Parser.expression n) (Parser.statement n) ⟨ts, errors⟩ = .ok l c ∧ l.Formed AnyToken ∧
        s = l.statement) ∧
    (∀ m : Machine, m.Reachable AnyToken → m.Linked) ∧
    ∀ l : ForLoop, l.Formed AnyToken → ∀ m : Machine, m.Linked → ∀ rounds,
      (∀ depth, EndsAs m (execute rounds (depth + 1) l.statement m) (l.run rounds (l.nesting depth) m)) ∧
      (∀ depth, ¬ Exhausted (execute rounds depth l.statement m) →
        EndsAs m (execute rounds depth l.statement m) (l.run rounds (.all depth) m)) ∧
      ∀ depth, ¬ Exhausted (l.run rounds (.all depth) m) →
        EndsAs m (execute rounds (depth + 4) l.statement m) (l.run rounds (.all depth) m) := by
  refine ⟨fun n t ts errors ht s c hr => ?_, fun m hm => hm.sound.linked, fun l hl m hm rounds => ?_⟩
  · rw [statement_for n ht, forStatement_eq] at hr
    have hread := yields_read n ⟨ts, errors⟩ fun _ _ => trivial
    change EStateM.map _ _ _ = _ at hr
    unfold EStateM.map at hr
    cases hl : read (Parser.expression n) (Parser.statement n) ⟨ts, errors⟩ with
    | ok l c' =>
      rw [hl] at hr hread
      cases hr
      exact ⟨l, rfl, hread.1, rfl⟩
    | error halt c' =>
      rw [hl] at hr
      cases hr
  · have hends (depth : Nat) : EndsAs m (execute rounds (depth + 1) l.statement m) (l.run rounds (l.nesting depth) m) :=
      (agreesWith_statement hl rounds depth).endsAs hm
    refine ⟨hends, fun depth hr => ?_, fun depth hr => ?_⟩
    · cases depth with
      | zero => exact absurd ⟨.tooDeep, m, rfl, trivial⟩ hr
      | succ depth =>
        -- the loop is not exhausted either, and has more room now
        have hloop : ¬ Exhausted (l.run rounds (l.nesting depth) m) := fun h => hr ((hends depth).exhausted.2 h)
        rw [l.deepens_run rounds (l.nesting_within depth) m hloop]
        exact hends depth
    · rw [← l.deepens_run rounds (l.within_nesting depth) m hr]
      exact hends (depth + 3)

/-- `for (var a; true; b) { print "once"; return; }` -/
def returning : List Token :=
  [⟨.kwFor, "for", .nil, 1⟩, ⟨.leftParen, "(", .nil, 1⟩, ⟨.kwVar, "var", .nil, 1⟩, ⟨.identifier, "a", .nil, 1⟩,
    ⟨.semicolon, ";", .nil, 1⟩, ⟨.kwTrue, "true", .nil, 1⟩, ⟨.semicolon, ";", .nil, 1⟩, ⟨.identifier, "b", .nil, 1⟩,
    ⟨.rightParen, ")", .nil, 1⟩, ⟨.leftBrace, "\x7b", .nil, 1⟩, ⟨.kwPrint, "print", .nil, 1⟩,
    ⟨.string, "\"once\"", .string "once", 1⟩, ⟨.semicolon, ";", .nil, 1⟩, ⟨.kwReturn, "return", .nil, 1⟩,
    ⟨.semicolon, ";", .nil, 1⟩, ⟨.rightBrace, "\x7d", .nil, 1⟩]

/-- Its clauses. There is no `b`, so the increment would fail. -/
def once : ForLoop where
  initializer := some (.var ⟨.identifier, "a", .nil, 1⟩ none)
  condition := some (.literal (.bool true))
  increment := some (.variable ⟨.identifier, "b", .nil, 1⟩)
  body := .block [.print (.literal (.string "once")), .return ⟨.kwReturn, "return", .nil, 1⟩ none]

theorem runs_as_loop_once :
    Parser.statement 20 ⟨returning, #[]⟩ = .ok once.statement ⟨[], #[]⟩ ∧
      ((execute 1 6 once.statement).after (fresh fun _ => 0)).output = "once\n" ∧
      EndsAs (fresh fun _ => 0) (execute 1 6 once.statement (fresh fun _ => 0))
        (once.run 1 (.all 6) (fresh fun _ => 0)) := by
  have hparsed : Parser.statement 20 ⟨returning, #[]⟩ = .ok once.statement ⟨[], #[]⟩ := rfl
  obtain ⟨l, hread, hl, -⟩ := runs_as_loop.1 19 _ _ #[] rfl _ _ hparsed
  obtain rfl : once = l := by
    have honce : read (Parser.expression 19) (Parser.statement 19) ⟨returning.tail, #[]⟩ = .ok once ⟨[], #[]⟩ := rfl
    cases honce.symm.trans hread
    rfl
  have hlinked := runs_as_loop.2.1 (fresh fun _ => 0) (reachable_fresh AnyToken _)
  have hanswers : ((execute 1 6 once.statement).run' (fresh fun _ => 0)).isSome := by decide +kernel
  have hroom : ¬ Exhausted (execute 1 6 once.statement (fresh fun _ => 0)) := by
    rintro ⟨i, m, hr, -⟩
    unfold EStateM.run' EStateM.run at hanswers
    rw [hr] at hanswers
    cases hanswers
  exact ⟨hparsed, by decide +kernel, (runs_as_loop.2.2 once hl _ hlinked 1).2.1 6 hroom⟩

end ForLoop
end Lox
