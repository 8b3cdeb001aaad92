import Lox.Proofs.Evaluation.Agreement
import Lox.Proofs.Session.Locals

/-! Looking names up agrees with lexical scoping. A parsed program whose names stand in order runs as it does with
every variable read and assigned in the scope that the text says, through closures that are called after their
scope has been left, recursion, methods and loops. -/

namespace Lox

/-- The end of a run, as one of an evaluation by lexical scoping that has kept `contexts` for its functions. -/
def Lexical.ending {α : Type} (contexts : Array Context) :
    EStateM.Result Interrupt Machine α → EStateM.Result Lexical.Halt Lexical.State α
  | .ok a m => .ok a ⟨m, contexts⟩
  | .error i m => .error (.interrupt i) ⟨m, contexts⟩

theorem Lexical.Follows.exists_ending {α : Type} {P : Token → Prop} {q : Lexical α} {p : Run α}
    {D : Declarations} {s : State} {Q : α → Declarations → State → Prop}
    (h : Follows P q p D s Q) : ∃ contexts, q s = ending contexts (p s.machine) := by
  unfold Follows at h
  generalize q s = x, p s.machine = y at h
  cases h with
  | @ok _ _ s' => exact ⟨s'.contexts, rfl⟩
  | @error _ s' => exact ⟨s'.contexts, rfl⟩

/-- Of any list of tokens, the statements that parse run from a fresh machine, if their names stand in order, as
they do by lexical scoping: each search for a variable comes to the scope as far outward as the text says, or else
to the globals or to nothing. So does a program that is a single expression and is evaluated for its value. -/
theorem Program.scoped_lexically (depth : Nat) (ts : List Token) :
    let statements := (Program.ofTokens depth (TokenStream.ofList ts).tokens).statements
    Stmt.orderlyAll [] statements → ∀ clock limits,
      (∃ contexts, Lexical.interpret limits statements ⟨Machine.fresh clock, #[]⟩ =
        Lexical.ending contexts (interpret limits statements (Machine.fresh clock))) ∧
      ∀ e, statements = [.expression e] → ∃ contexts,
        Lexical.evaluate limits.rounds limits.depth [] e ⟨Machine.fresh clock, #[]⟩ =
          Lexical.ending contexts (evaluate limits.rounds limits.depth e (Machine.fresh clock)) := by
  intro statements horderly clock limits
  have hformed : ∀ t ∈ statements, t.Formed AnyToken := Program.formed_ofTokens fun _ _ => trivial
  have hfresh := Lexical.faithful_fresh AnyToken (fun _ => []) clock
  refine ⟨(Lexical.follows_interpret limits statements hformed horderly _ _ hfresh rfl).exists_ending, ?_⟩
  intro e he
  rw [he] at hformed horderly
  rw [Stmt.orderlyAll, Stmt.orderly, Bool.and_eq_true] at horderly
  cases hformed _ List.mem_cons_self with
  | expression hi =>
    have hev := (Lexical.evaluatesAlike_executesAlike AnyToken limits.rounds limits.depth).1
    exact (hev e hi [] horderly.1 _ _ hfresh .outside).exists_ending

/-- `{ var a; fun f(x) { x = a; return f; } f(a); }` -/
def capture : List Token :=
  [⟨.leftBrace, "\x7b", .nil, 1⟩, ⟨.kwVar, "var", .nil, 1⟩, ⟨.identifier, "a", .nil, 1⟩, ⟨.semicolon, ";", .nil, 1⟩,
    ⟨.kwFun, "fun", .nil, 1⟩, ⟨.identifier, "f", .nil, 1⟩, ⟨.leftParen, "(", .nil, 1⟩, ⟨.identifier, "x", .nil, 1⟩,
    ⟨.rightParen, ")", .nil, 1⟩, ⟨.leftBrace, "\x7b", .nil, 1⟩, ⟨.identifier, "x", .nil, 1⟩, ⟨.equal, "=", .nil, 1⟩,
    ⟨.identifier, "a", .nil, 1⟩, ⟨.semicolon, ";", .nil, 1⟩, ⟨.kwReturn, "return", .nil, 1⟩,
    ⟨.identifier, "f", .nil, 1⟩, ⟨.semicolon, ";", .nil, 1⟩, ⟨.rightBrace, "\x7d", .nil, 1⟩,
    ⟨.identifier, "f", .nil, 1⟩, ⟨.leftParen, "(", .nil, 1⟩, ⟨.identifier, "a", .nil, 1⟩,
    ⟨.rightParen, ")", .nil, 1⟩, ⟨.semicolon, ";", .nil, 1⟩, ⟨.rightBrace, "\x7d", .nil, 1⟩, ⟨.eof, "", .nil, 1⟩]

theorem Program.scoped_lexically_capture :
    let statements := (Program.ofTokens 50 (TokenStream.ofList capture).tokens).statements
    statements.length = 1 ∧ Stmt.orderlyAll [] statements ∧ ∀ clock, ∃ contexts,
      Lexical.interpret ⟨50, 50⟩ statements ⟨Machine.fresh clock, #[]⟩ =
        Lexical.ending contexts (interpret ⟨50, 50⟩ statements (Machine.fresh clock)) :=
  ⟨rfl, rfl, fun clock => (Program.scoped_lexically 50 capture rfl clock ⟨50, 50⟩).1⟩

end Lox
