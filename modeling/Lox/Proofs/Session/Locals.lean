import Lox.Proofs.Session.Reachable

/-! Locals never leak. Nothing is known of the tokens here: the programs may come from any list of tokens. -/

namespace Lox

open Machine

def AnyToken : Token → Prop := fun _ => True

/-- No operation on scopes takes a name from one. -/
theorem Scopes.owns_of_operation {α : Type} (s : Scopes α) {i : ScopeId} {n : String}
    (h : (s.bindings i).owns n) (id : ScopeId) (name : String) (v : α) :
    ((s.define id name v).bindings i).owns n ∧
      (∀ s', s.assign? id name v = some s' → (s'.bindings i).owns n) ∧
      (∀ distance s', s.assignAt? id distance name v = some s' → (s'.bindings i).owns n) ∧
      ∀ parent, ((s.new parent).2.bindings i).owns n := by
  refine ⟨s.owns_define_of_owns h, fun s' hs' => ?_, fun distance s' hs' => ?_, fun parent => ?_⟩
  · obtain ⟨j, -, rfl⟩ := Option.map_eq_some_iff.1 hs'
    exact s.owns_define_of_owns h
  · obtain ⟨j, -, rfl⟩ := Option.map_eq_some_iff.1 hs'
    exact s.owns_define_of_owns h
  · rwa [s.bindings_new]

/-- In every state a run can come to, an expression leaves every scope there is with the names it owns, and
a statement gives the current scope what it declares, one name at most and none if it fails. -/
theorem locals_never_leak :
    (∀ depth ts, (∀ s ∈ (Program.ofTokens depth ts).statements, s.Formed AnyToken) ∧
      ∀ e ∈ (ParsedExpression.ofTokens depth ts).result, e.Formed AnyToken) ∧
    (∀ clock, (fresh clock).Reachable AnyToken) ∧
    (∀ s : Session, s.Arises → s.machine.Reachable AnyToken) ∧
    ∀ m : Machine, m.Reachable AnyToken → m.current < m.scopes.size ∧
      (∀ rounds depth (e : Expr), e.Formed AnyToken →
        let m' := (evaluate rounds depth e).after m
        m'.Reachable AnyToken ∧ m'.current = m.current ∧ Gains [] m m') ∧
      (∀ rounds depth (s : Stmt), s.Formed AnyToken →
        s.declares.length ≤ 1 ∧ ((execute rounds depth s).after m).Reachable AnyToken ∧
          match execute rounds depth s m with
          | .ok _ m' => m'.current = m.current ∧ Gains s.declares m m'
          | .error _ m' => m'.current = m.current ∧ Gains [] m m') ∧
      (∀ m', Steps AnyToken m m' → ∀ s n, (m.scopes.bindings s).owns n → (m'.scopes.bindings s).owns n) ∧
      ∀ i n, (m.scopes.bindings i).owns n → ∀ id name v,
        ((m.scopes.define id name v).bindings i).owns n ∧
          (∀ s', m.scopes.assign? id name v = some s' → (s'.bindings i).owns n) ∧
          (∀ distance s', m.scopes.assignAt? id distance name v = some s' → (s'.bindings i).owns n) ∧
          ∀ parent, ((m.scopes.new parent).2.bindings i).owns n := by
  refine ⟨fun depth ts => ⟨Program.formed_ofTokens fun _ _ => trivial,
    ParsedExpression.formed_ofTokens fun _ _ => trivial⟩, reachable_fresh AnyToken,
    fun s hs => hs.reachable fun _ _ => trivial, fun m hm => ⟨hm.sound.current, fun rounds depth e he => ?_,
    fun rounds depth s hs => ⟨s.length_declares_le, hm.execute rounds depth hs, ?_⟩,
    fun m' hsteps => hsteps.grows.owns, fun i n h id name v => m.scopes.owns_of_operation h id name v⟩⟩
  · have hkeeps := (Run.evaluates_executes AnyToken rounds depth).1 e he m hm.sound
    refine ⟨hm.evaluate rounds depth he, ?_⟩
    unfold Run.Keeps at hkeeps
    unfold Run.after
    cases hr : evaluate rounds depth e m with
    | ok v m' => rw [hr] at hkeeps; exact ⟨hkeeps.1.current, hkeeps.1.owns⟩
    | error i m' => rw [hr] at hkeeps; exact ⟨hkeeps.1.current, hkeeps.1.owns⟩
  · have hkeeps := (Run.evaluates_executes AnyToken rounds depth).2 s hs m hm.sound
    unfold Run.Keeps at hkeeps
    cases hr : execute rounds depth s m with
    | ok c m' => rw [hr] at hkeeps; exact ⟨hkeeps.1.current, hkeeps.1.owns⟩
    | error i m' => rw [hr] at hkeeps; exact ⟨hkeeps.1.current, hkeeps.1.owns⟩

end Lox
