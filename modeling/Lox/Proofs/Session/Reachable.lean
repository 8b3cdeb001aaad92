import Lox.Proofs.Evaluation.Continues
import Lox.Proofs.Evaluation.Evolution
import Lox.Proofs.Grammar.Yields
import Lox.Proofs.Token.Spelled
import Lox.Session

/-! The states that sessions come to. Whatever sources a session is fed, and however their runs end, its
machine is one that steps lead to, and so are the machines in between, from one evaluation to the next. -/

namespace Lox

open Machine

variable {P : Token → Prop} {m : Machine} {α : Type}

namespace Run

theorem Keeps.evolves_after {names : List String} {p : Run α} {Q : α → Machine → Prop}
    (h : Keeps P names p m Q) : Steps P m (p.after m) ∧ (p.after m).current = m.current := by
  unfold Keeps at h
  unfold after
  cases hr : p m with
  | ok a m' => rw [hr] at h; exact ⟨h.1.steps, h.1.current⟩
  | error i m' => rw [hr] at h; exact ⟨h.1.steps, h.1.current⟩

theorem Keeps.steps {names : List String} {p : Run α} {Q : α → Machine → Prop}
    (h : Keeps P names p m Q) : Steps P m (p.after m) := h.evolves_after.1

/-- Statements one after the other, as a program runs them. -/
theorem steps_interpret (limits : Limits) (ss : List Stmt) : (∀ s ∈ ss, s.Formed P) → ∀ m, m.Sound P →
    Steps P m ((interpret limits ss).after m) := by
  induction ss with
  | nil => exact fun _ m _ => .refl
  | cons s ss ih =>
    intro hss m hm
    obtain ⟨hs, hss⟩ := List.forall_mem_cons.1 hss
    have hfirst := ((evaluates_executes P limits.rounds limits.depth).2 s hs m hm).steps
    rw [interpret, after_bind]
    unfold after at hfirst
    cases hr : execute limits.rounds limits.depth s m with
    | error i m₁ => rwa [hr] at hfirst
    | ok c m₁ =>
      rw [hr] at hfirst
      exact hfirst.trans (ih hss m₁ (Steps.sound hfirst hm))

end Run

namespace Machine

theorem reachable_fresh (P : Token → Prop) (clock : Nat → Float) : (fresh clock).Reachable P := ⟨clock, .refl⟩

theorem Reachable.steps {m' : Machine} (h : m.Reachable P) (hsteps : Steps P m m') : m'.Reachable P := by
  obtain ⟨clock, hm⟩ := h
  exact ⟨clock, hm.trans hsteps⟩

theorem Reachable.evaluate (h : m.Reachable P) (rounds depth : Nat) {e : Expr} (he : e.Formed P) :
    (Run.after (Lox.evaluate rounds depth e) m).Reachable P :=
  h.steps ((Run.evaluates_executes P rounds depth).1 e he m h.sound).steps

theorem Reachable.execute (h : m.Reachable P) (rounds depth : Nat) {s : Stmt} (hs : s.Formed P) :
    (Run.after (Lox.execute rounds depth s) m).Reachable P :=
  h.steps ((Run.evaluates_executes P rounds depth).2 s hs m h.sound).steps

end Machine

/-- What parses of a source is well formed, and its words are spelled as such. -/
theorem Reading.formed_ofText (hP : ∀ t : Token, t.Spelled → P t) (depth : Nat) (source : String) :
    ∀ s ∈ (Reading.ofText depth source).statements, s.Formed P :=
  Program.formed_ofTokens fun t ht => hP t (Scan.spelled_ofText source t ht)

namespace Session

/-- The sessions that come about when sources are fed to a fresh one, in any of the ways there are. -/
inductive Arises : Session → Prop where
  | fresh (clock : Nat → Float) : Arises (fresh clock)
  | runAnyway {s : Session} (limits : Limits) (source : String) : Arises s →
      Arises (s.runAnyway limits source).1
  | submit {s : Session} (limits : Limits) (verbose : Bool) (source : String) : Arises s →
      Arises (s.submit limits verbose source).1
  | takeOutput {s : Session} : Arises s → Arises s.takeOutput.2

theorem machine_settle (reporter : Reporter) (p : Run α) (m : Machine) :
    (settle reporter (p m)).1.machine = p.after m := by
  unfold settle Run.after
  cases p m with
  | ok a m' => rfl
  | error i m' => cases i <;> rfl

variable {s : Session} {limits : Limits} {statements : List Stmt}

theorem reachable_execute (h : s.machine.Reachable P) (hss : ∀ s ∈ statements, s.Formed P) :
    (s.execute limits statements).1.machine.Reachable P := by
  unfold execute
  rw [machine_settle]
  exact h.steps (Run.steps_interpret limits statements hss s.machine h.sound)

theorem reachable_echo (h : s.machine.Reachable P) {e : Expr} (he : e.Formed P) :
    (s.echo limits e).1.machine.Reachable P := by
  have hrun : Run.Keeps P [] (do
      let v ← evaluate limits.rounds limits.depth e
      modify fun m => m.write (m.display v)) s.machine fun _ _ => True := by
    refine ((Run.evaluates_executes P limits.rounds limits.depth).1 e he _ h.sound).bind h.sound ?_
    exact fun v m' _ _ _ => Run.keeps_modify (evolves_output _) trivial
  unfold echo
  rw [machine_settle]
  exact h.steps hrun.steps

theorem reachable_run (h : s.machine.Reachable P) (hss : ∀ s ∈ statements, s.Formed P) :
    (s.run limits statements).1.machine.Reachable P := by
  unfold run
  split
  · next e =>
    cases hss (.expression e) (List.mem_singleton_self _) with
    | expression he => exact reachable_echo h he
  · exact reachable_execute h hss

theorem Arises.reachable (h : s.Arises) (hP : ∀ t : Token, t.Spelled → P t) : s.machine.Reachable P := by
  induction h with
  | fresh clock => exact reachable_fresh _ clock
  | runAnyway limits source _ ih => exact reachable_execute ih (Reading.formed_ofText hP limits.depth source)
  | submit limits verbose source _ ih =>
    have hss := Reading.formed_ofText hP limits.depth source
    unfold Session.submit
    dsimp only
    split
    · exact ih
    · split
      · split
        · exact reachable_run (ih.steps (.single (.output _))) hss
        · exact ih
      · exact reachable_run ih hss
  | takeOutput _ ih => exact ih.steps (.single (.output ""))

end Session
end Lox
