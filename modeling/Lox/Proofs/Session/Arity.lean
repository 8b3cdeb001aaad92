import Lox.Proofs.Evaluation.Arity
import Lox.Proofs.Session.Store

/-! Arity in all sessions. Whatever programs a session runs, no call in them enters a function with fewer or more
arguments than it has parameters. -/

namespace Lox

open Machine

/-- In every state that sessions and programs come to, inside their runs and after them, a call enters a function only
with as many arguments as it has parameters, and what is refused is refused at the closing parenthesis without another
change. It would make no difference what a function did with any other number of arguments. -/
theorem arity_protects_calls :
    (∀ depth ts, ∀ s ∈ (Program.ofTokens depth ts).statements, s.Parsed AnyToken) ∧
    (∀ s : Session, s.Arises → s.machine.Reachable AnyToken) ∧
    (∀ m : Machine, m.HasRun → m.Reachable AnyToken) ∧
    (∀ m : Machine, m.Reachable AnyToken → (∀ m', Steps AnyToken m m' → m'.Reachable AnyToken) ∧
      (∀ rounds depth (e : Expr), e.Parsed AnyToken → Steps AnyToken m ((evaluate rounds depth e).after m)) ∧
      (∀ rounds depth (s : Stmt), s.Parsed AnyToken → Steps AnyToken m ((execute rounds depth s).after m)) ∧
      (∀ scope m', Run.make (·.newScope m.current) m = .ok scope m' →
        Steps AnyToken m { m' with current := scope }) ∧
      (∀ f vs scope m', m.SoundFunction AnyToken f → (∀ v ∈ vs, m.Known v) → Entered f vs m scope m' →
        Steps AnyToken m { m' with current := scope }) ∧
      ∀ rounds depth callee paren es, (Expr.call callee paren es).Parsed AnyToken → paren.kind = .rightParen ∧
        Run.CallEnds rounds depth callee paren es m (evaluate rounds (depth + 1) (.call callee paren es) m)) ∧
    (∀ (m : Machine) v, m.Provides v → ∀ body paren vs,
      Run.Answers body paren m v vs (Run.checkedCall body paren v vs m)) ∧
    ∀ rounds depth callee paren es calling,
      (∀ f vs, f.declaration.params.length = vs.length →
        calling f vs = Run.callFunction (Run.block (execute rounds depth)) f vs) →
      evaluate rounds (depth + 1) (.call callee paren es) = (do
        let v ← evaluate rounds depth callee
        let vs ← es.mapM (evaluate rounds depth)
        Run.checkedCallBy calling paren v vs) := by
  refine ⟨fun depth ts => Program.parsed_ofTokens fun _ _ => trivial, fun s hs => hs.reachable fun _ _ => trivial,
    fun m hm => hm.reachable, fun m hm => ⟨fun m' hsteps => hm.steps hsteps, ?_, ?_, ?_, ?_, ?_⟩,
    fun m v hv body paren vs => Run.answers_checkedCall hv, ?_⟩
  · intro rounds depth e he
    exact ((Run.evaluates_executes AnyToken rounds depth).1 e he.formed m hm.sound).steps
  · intro rounds depth s hs
    exact ((Run.evaluates_executes AnyToken rounds depth).2 s hs.formed m hm.sound).steps
  · intro scope m' hmake
    cases hmake
    exact steps_into hm.sound.current (List.forall_mem_nil _) (List.forall_mem_nil _)
  · intro f vs scope m' hf hvs hentered
    cases hentered.enter
    exact steps_into hf.closure hf.declaration.params hvs
  · intro rounds depth callee paren es he
    have hparen : paren.kind = .rightParen := by
      cases he with
      | call _ hkind _ _ => exact hkind
    exact ⟨hparen, Run.callEnds_evaluate hm.sound he.formed⟩
  · intro rounds depth callee paren es calling h
    rw [Run.checkedCallBy_congr h, Run.checkedCallBy_callFunction, evaluate]

/-- `fun pair(a, a) { }` -/
def Machine.pair : FunctionObject :=
  ⟨⟨⟨.identifier, "pair", .nil, 1⟩, [⟨.identifier, "a", .nil, 1⟩, ⟨.identifier, "a", .nil, 1⟩], []⟩,
    Machine.globals, false⟩

/-- A machine in which that function is a global. -/
def Machine.pairing : Machine :=
  ((Machine.fresh fun _ => 0).newFunction Machine.pair).2.define Machine.globals "pair" (.function 0)

theorem Machine.reachable_pairing : Machine.pairing.Reachable AnyToken := by
  have hformed : Machine.pair.declaration.Formed AnyToken :=
    ⟨⟨rfl, trivial⟩, by simp [Machine.pair, Token.IsName, AnyToken], List.forall_mem_nil _⟩
  have hmade : Step AnyToken (Machine.fresh fun _ => 0) _ := .newFunction ⟨Nat.zero_lt_one, hformed⟩
  refine ⟨fun _ => 0, .tail (.single hmade) (.define Nat.zero_lt_one ?_ ?_ ?_)⟩
  · exact ⟨Machine.pair.declaration.name, ⟨rfl, trivial⟩, rfl⟩
  · exact ⟨Machine.pair, rfl, nofun⟩
  · intro _ ho
    cases ho

/-- `pair(nil)` is refused, and `pair(nil, true)` binds the name of both parameters to the second argument. -/
theorem arity_protects_calls_pair :
    let paren : Token := ⟨.rightParen, ")", .nil, 1⟩
    let callee : Expr := .variable Machine.pair.declaration.name
    evaluate 9 2 (.call callee paren [.literal .nil]) Machine.pairing =
        .error (.failed ⟨paren, .wrongArity 2 1⟩) Machine.pairing ∧
      ∃ scope m', Entered Machine.pair [.nil, .bool true] Machine.pairing scope m' ∧
        (m'.scopes.bindings scope).get? "a" = some (.bool true) := by
  intro paren callee
  have hcallee : evaluate 9 1 callee Machine.pairing = .ok (.function 0) Machine.pairing := by
    let name : String := Machine.pair.declaration.name.lexeme
    have howns : (Machine.pairing.scopes.bindings Machine.pairing.current).owns name := by decide
    rw [evaluate, Run.lookUp, Scopes.get?, Scopes.owner?_of_owns _ howns]
    rfl
  have hone : Run.InTurn (evaluate 9 1) Machine.pairing [.literal .nil] [.nil] Machine.pairing := .cons rfl .nil
  have htwo : Run.InTurn (evaluate 9 1) Machine.pairing [.literal .nil, .literal (.bool true)] [.nil, .bool true]
      Machine.pairing := .cons rfl (.cons rfl .nil)
  have hformed (es : List Expr) (hes : ∀ e ∈ es, e.Parsed AnyToken) :
      (Expr.call callee paren es).Parsed AnyToken := .call (.variable ⟨rfl, trivial⟩) rfl trivial hes
  have hnil : (Expr.literal .nil).Parsed AnyToken := .literal (Literal.isRead_nil _)
  have htrue : (Expr.literal (.bool true)).Parsed AnyToken := .literal (Literal.isRead_bool _ true)
  have hcalls := (arity_protects_calls.2.2.2.1 _ Machine.reachable_pairing).2.2.2.2.2 9 1 callee paren
  have hf : Machine.pairing.functions[0]? = some Machine.pair := rfl
  constructor
  · have hends := (hcalls _ (hformed [.literal .nil] (by simp [hnil]))).2
    rcases (hends.answers hcallee hone).refused_or_entered hf with ⟨-, hrefused⟩ | ⟨_, _, hentered, -⟩
    · exact hrefused
    · exact absurd hentered.arguments (by decide)
  · have hends := (hcalls _ (hformed [.literal .nil, .literal (.bool true)] (by simp [hnil, htrue]))).2
    rcases (hends.answers hcallee htwo).refused_or_entered hf with ⟨hne, -⟩ | ⟨scope, m', hentered, -⟩
    · exact absurd rfl hne
    · refine ⟨scope, m', hentered, hentered.bound 1 _ _ rfl rfl fun j q hj hq => ?_⟩
      obtain ⟨hlt, -⟩ := List.getElem?_eq_some_iff.1 hq
      exact absurd hlt (Nat.not_lt.2 hj)

end Lox
