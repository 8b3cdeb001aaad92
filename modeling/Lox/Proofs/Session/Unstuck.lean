import Lox.Proofs.Evaluation.Calls
import Lox.Proofs.Session.Locals
import Lox.Proofs.Tree.Printable

/-! Parsed programs never get stuck. Whatever the tokens are, and whatever was wrong with some of them, what
parses of them runs to an end of its own, and it can be printed. -/

namespace Lox

/-- How a run may end: with a result, over a failure of the program, or for want of room. It may also have used
up the turns its loops are allowed, as a run that goes on forever does whatever their number. -/
def Run.EndsProperly {α : Type} : EStateM.Result Interrupt Machine α → Prop
  | .ok _ _ | .error (.failed _) _ | .error .tooDeep _ | .error .unfinished _ => True
  | .error (.stuck _) _ => False

/-- The machines that parsed programs lead to, run one after the other from a fresh machine on, however each
of them ends. -/
inductive Machine.HasRun : Machine → Prop where
  | fresh (clock : Nat → Float) : HasRun (fresh clock)
  | program {m : Machine} (limits : Limits) (depth : Nat) (ts : List Token) : HasRun m →
      HasRun ((interpret limits (Program.ofTokens depth (TokenStream.ofList ts).tokens).statements).after m)

variable {P : Token → Prop} {α : Type} {m : Machine}

theorem Run.endsProperly_of {r : EStateM.Result Interrupt Machine α}
    (h : ∀ s m', r ≠ .error (.stuck s) m') : Run.EndsProperly r := by
  rcases r with _ | ⟨_ | _ | _ | s, m'⟩
  · trivial
  · trivial
  · trivial
  · trivial
  · exact h s m' rfl

theorem Run.Keeps.endsProperly {names : List String} {p : Run α} {Q : α → Machine → Prop}
    (h : Keeps P names p m Q) : EndsProperly (p m) := by
  refine endsProperly_of fun s m' hr => ?_
  unfold Keeps at h
  rw [hr] at h
  exact h.2 s rfl

/-- Statements in order end as each of them may. -/
theorem Run.endsProperly_interpret (limits : Limits) (ss : List Stmt) : (∀ s ∈ ss, s.Formed P) →
    ∀ m, m.Sound P → EndsProperly (interpret limits ss m) := by
  induction ss with
  | nil => exact fun _ _ _ => trivial
  | cons s ss ih =>
    intro hss m hm
    obtain ⟨hs, hss⟩ := List.forall_mem_cons.1 hss
    have hfirst := (evaluates_executes P limits.rounds limits.depth).2 s hs m hm
    refine endsProperly_of fun stuck m' hr => ?_
    rcases bind_eq_error hr with hr | ⟨c, m₁, hr, hrest⟩
    · have hends := hfirst.endsProperly
      rw [hr] at hends
      exact hends
    · have hends := ih hss m₁ ((hfirst.ok hr).1.steps.sound hm)
      rw [hrest] at hends
      exact hends

theorem Machine.HasRun.reachable (h : m.HasRun) : m.Reachable AnyToken := by
  induction h with
  | fresh clock => exact reachable_fresh AnyToken clock
  | program limits depth ts _ ih =>
    exact ih.steps (Run.steps_interpret limits _ (Program.formed_ofTokens fun _ _ => trivial) _ ih.sound)

/-- Of any list of tokens, the statements that parse run properly on every machine that such programs lead to,
all in order or any one of them, and each can be printed unless it is too high. -/
theorem Program.never_stuck (depth : Nat) (ts : List Token) :
    let statements := (Program.ofTokens depth (TokenStream.ofList ts).tokens).statements
    (∀ m : Machine, m.HasRun → ∀ limits,
      Run.EndsProperly (interpret limits statements m) ∧
        ∀ s ∈ statements, Run.EndsProperly (execute limits.rounds limits.depth s m)) ∧
      ∀ s ∈ statements, ∀ levels e, s.render levels = .error e → e = .tooDeep := by
  intro statements
  have hformed : ∀ s ∈ statements, s.Formed AnyToken := Program.formed_ofTokens fun _ _ => trivial
  refine ⟨fun m hm limits => ?_, fun s hs levels e he => (hformed s hs).render_eq_error he⟩
  have hsound : m.Sound AnyToken := hm.reachable.sound
  refine ⟨Run.endsProperly_interpret limits statements hformed m hsound, fun s hs => ?_⟩
  exact ((Run.evaluates_executes AnyToken limits.rounds limits.depth).2 s (hformed s hs) m hsound).endsProperly

/-- `) ; print -"a" / 0;` -/
def strayParen : List Token :=
  [⟨.rightParen, ")", .nil, 1⟩, ⟨.semicolon, ";", .nil, 1⟩, ⟨.kwPrint, "print", .nil, 1⟩,
    ⟨.minus, "-", .nil, 1⟩, ⟨.string, "\"a\"", .string "a", 1⟩, ⟨.slash, "/", .nil, 1⟩,
    ⟨.number, "0", .number 0, 1⟩, ⟨.semicolon, ";", .nil, 1⟩, ⟨.eof, "", .nil, 1⟩]

theorem Program.never_stuck_strayParen :
    let statements := (Program.ofTokens 20 (TokenStream.ofList strayParen).tokens).statements
    statements.length = 1 ∧ ∀ clock,
      Run.EndsProperly (interpret ⟨9, 9⟩ statements
        ((interpret ⟨9, 9⟩ statements).after (Machine.fresh clock))) ∧
      ∀ s ∈ statements, ∀ e, s.render 1 = .error e → e = .tooDeep :=
  ⟨rfl, fun clock =>
    ⟨((Program.never_stuck 20 strayParen).1 _ (.program ⟨9, 9⟩ 20 strayParen (.fresh clock)) ⟨9, 9⟩).1,
      fun s hs => (Program.never_stuck 20 strayParen).2 s hs 1⟩⟩

end Lox
