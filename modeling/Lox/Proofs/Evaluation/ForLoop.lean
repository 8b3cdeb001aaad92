import Lox.Proofs.Evaluation.Alike
import Lox.Proofs.Evaluation.Deepens

/-! What a `for` means, and that its statement means this. The statement is made of blocks and a `while`, so it runs in
scopes that the loop has no use for, and without the scope of the loop where there is no initializer. -/

namespace Lox

open Machine Run

/-- The clauses and the body of a `for`. -/
structure ForLoop where
  initializer : Option Stmt
  condition : Option Expr
  increment : Option Expr
  body : Stmt

/-- How deeply each part of a loop may nest. -/
structure Nesting where
  initializer : Nat
  condition : Nat
  body : Nat
  increment : Nat

/-- The same depth for every part. -/
def Nesting.all (depth : Nat) : Nesting := ⟨depth, depth, depth, depth⟩

structure Nesting.Within (n n' : Nesting) : Prop where
  initializer : n.initializer ≤ n'.initializer
  condition : n.condition ≤ n'.condition
  body : n.body ≤ n'.body
  increment : n.increment ≤ n'.increment

namespace ForLoop

/-- What a `for` begins with declares one variable or is an expression, and its body is no declaration. -/
structure Formed (P : Token → Prop) (l : ForLoop) : Prop where
  initializer : ∀ s ∈ l.initializer, (∃ name value, s = .var name value) ∨ ∃ e, s = .expression e
  body : l.body.Formed P
  silent : l.body.declares = []

/-- The statement that stands for the loop. -/
def statement (l : ForLoop) : Stmt := Parser.loop l.initializer l.condition l.increment l.body

/-! The loop itself -/

def start (l : ForLoop) (rounds depth : Nat) : Run Unit :=
  match l.initializer with
  | some s => do let _ ← execute rounds depth s
  | none => pure ()

def holds (l : ForLoop) (rounds depth : Nat) : Run Bool :=
  match l.condition with
  | some e => Value.isTruthy <$> evaluate rounds depth e
  | none => pure true

def advance (l : ForLoop) (rounds depth : Nat) : Run Unit :=
  match l.increment with
  | some e => do let _ ← evaluate rounds depth e
  | none => pure ()

/-- Turns while the condition holds. One whose body returns is the last and does without the increment. -/
def turns (condition : Run Bool) (body : Run Completion) (increment : Run Unit) : (rounds : Nat) → Run Completion
  | 0 => throw .unfinished
  | rounds + 1 => do
    if ← condition then
      match ← body with
      | .returned v => pure (.returned v)
      | .normal =>
        increment
        turns condition body increment rounds
    else
      pure .normal

/-- The initializer once, in a new scope that holds the loop, and then the turns. -/
def run (l : ForLoop) (rounds : Nat) (n : Nesting) : Run Completion :=
  inNewScope do
    l.start rounds n.initializer
    turns (l.holds rounds n.condition) (execute rounds n.body l.body) (l.advance rounds n.increment) rounds

/-- How deeply the parts of the `while` may nest. An initializer puts it into a block. -/
def inner (l : ForLoop) (depth : Nat) : Nat := if l.initializer.isSome then depth - 1 else depth

/-- How deeply the body may nest. An increment puts it into a block. -/
def innermost (l : ForLoop) (inner : Nat) : Nat := if l.increment.isSome then inner - 1 else inner

/-- How deeply the parts of the loop may nest if those of its statement may nest `depth` deep. -/
def nesting (l : ForLoop) (depth : Nat) : Nesting :=
  ⟨depth, l.inner depth, l.innermost (l.inner depth), l.inner depth - 2⟩

theorem inner_bounds (l : ForLoop) (depth : Nat) : l.inner depth ≤ depth ∧ depth ≤ l.inner depth + 1 := by
  unfold inner
  split <;> omega

theorem innermost_bounds (l : ForLoop) (inner : Nat) : l.innermost inner ≤ inner ∧ inner ≤ l.innermost inner + 1 := by
  unfold innermost
  split <;> omega

/-- What the `while` runs: the body alone, or a block with the increment behind it. -/
def wrapped (l : ForLoop) : Stmt :=
  match l.increment with
  | some e => .block [l.body, .expression e]
  | none => l.body

def whileLoop (l : ForLoop) : Stmt := .while (l.condition.getD (.literal (.bool true))) l.wrapped

theorem statement_eq (l : ForLoop) : l.statement = match l.initializer with
    | some s => .block [s, l.whileLoop]
    | none => l.whileLoop := rfl

/-! A turn -/

/-- The body with the increment behind it. -/
def turn (body : Run Completion) (increment : Run Unit) : Run Completion := do
  match ← body with
  | .returned v => pure (.returned v)
  | .normal =>
    increment
    pure .normal

theorem turns_eq (condition : Run Bool) (body : Run Completion) (increment : Run Unit) (rounds : Nat) :
    turns condition body increment rounds = loop condition (turn body increment) rounds := by
  induction rounds with
  | zero => rfl
  | succ rounds ih =>
    unfold turns loop turn
    congr 1
    funext b
    split
    · rw [bind_assoc]
      congr 1
      funext c
      cases c with
      | returned v => rfl
      | normal =>
        rw [ih, bind_assoc]
        rfl
    · rfl

theorem turn_pure (body : Run Completion) : turn body (pure ()) = body := by
  have hlast : turn body (pure ()) = body >>= pure := by
    unfold turn
    congr 1
    funext c
    cases c <;> rfl
  rw [hlast, bind_pure]

theorem sequence_singleton (execute : Stmt → Run Completion) (s : Stmt) : Run.sequence execute [s] = execute s := by
  have hlast : Run.sequence execute [s] = execute s >>= pure := by
    unfold Run.sequence
    congr 1
    funext c
    cases c <;> rfl
  rw [hlast, bind_pure]

theorem execute_expression (rounds depth : Nat) (e : Expr) :
    execute rounds depth (.expression e) = evaluate rounds (depth - 1) e >>= fun _ => pure .normal := by
  cases depth <;> rfl

/-- What a loop begins with never returns. -/
theorem Formed.execute_start {P : Token → Prop} {l : ForLoop} (hl : l.Formed P) {s : Stmt} (hs : s ∈ l.initializer)
    (rounds depth : Nat) :
    execute rounds depth s = execute rounds depth s >>= fun _ => pure .normal := by
  have hlast {α : Type} (p : Run α) : (p >>= fun _ => pure Completion.normal) =
      (p >>= fun _ => pure Completion.normal) >>= fun _ => pure Completion.normal := by
    rw [bind_assoc]
    rfl
  rcases hl.initializer s hs with ⟨name, value, rfl⟩ | ⟨e, rfl⟩
  · cases depth with
    | zero => rfl
    | succ depth =>
      cases value with
      | none => exact hlast (define name .nil)
      | some e =>
        have hvar : execute rounds (depth + 1) (.var name (some e)) =
            (evaluate rounds depth e >>= define name) >>= fun _ => pure .normal := by
          rw [bind_assoc]
          rfl
        rw [hvar]
        exact hlast _
  · rw [execute_expression]
    exact hlast _

section Simulation

variable {K : Pairing → Machine → Machine → Prop} {P : Token → Prop} {l : ForLoop}

theorem agreesWith_turn (hl : l.Formed P) (hK : Place K) (rounds inner : Nat) :
    AgreesWith K (execute rounds inner l.wrapped)
      (turn (execute rounds (l.innermost inner) l.body) (l.advance rounds (inner - 2))) := by
  have hbody (depth : Nat) {K} (hK : Place K) : Agrees K (execute rounds depth l.body) :=
    (agrees_evaluate_execute P rounds depth).2 K hK l.body (.inr ⟨hl.body, hl.silent⟩)
  unfold wrapped advance innermost
  cases l.increment with
  | none =>
    dsimp only
    rw [turn_pure]
    exact hbody inner hK
  | some e =>
    cases inner with
    | zero => exact agrees_throw .tooDeep
    | succ k =>
      have hincrement : Agrees Facing (evaluate rounds (k - 1) e) := (agrees_evaluate_execute P rounds (k - 1)).1 e
      -- the block makes a scope of its own for each turn
      have hblock : AgreesWith Facing (Run.sequence (execute rounds k) [l.body, .expression e])
          (turn (execute rounds k l.body) (do let _ ← evaluate rounds (k - 1) e)) := by
        refine (hbody k place_facing).bind place_facing fun c => ?_
        cases c with
        | returned v => exact agrees_pure _
        | normal =>
          dsimp only
          rw [sequence_singleton, execute_expression, bind_assoc]
          exact hincrement.bind place_facing fun _ => agrees_pure _
      exact fun _ _ _ ha hk => hblock.inNewScopeLeft ha (hK.facing hk)

/-- Where there is an initializer the two stand in paired scopes, and elsewhere the loop stands in a scope more. -/
theorem agreesWith_while (hl : l.Formed P) (hK : Place K) (rounds inner : Nat) :
    AgreesWith K (execute rounds (inner + 1) l.whileLoop)
      (turns (l.holds rounds inner) (execute rounds (l.innermost inner) l.body)
        (l.advance rounds (inner - 2)) rounds) := by
  have hturn := agreesWith_turn hl hK rounds inner
  rw [turns_eq]
  cases hc : l.condition with
  | some e =>
    have hcondition : Agrees K (evaluate rounds inner e) := ((agrees_evaluate_execute P rounds inner).1 e).facing hK
    unfold whileLoop holds
    rw [hc]
    exact agrees_loop hK (hcondition.map _) hturn rounds
  | none =>
    unfold whileLoop holds
    rw [hc]
    cases inner with
    | succ k => exact agrees_loop hK (agrees_pure true) hturn rounds
    | zero =>
      -- no depth is left for the condition, and none for the body where the condition is not there
      cases rounds with
      | zero => exact agrees_throw .unfinished
      | succ rounds =>
        have hbody : l.innermost 0 = 0 := Nat.le_zero.1 (l.innermost_bounds 0).1
        rw [hbody]
        exact agrees_throw .tooDeep

/-- From any place in alike machines the statement does what the loop does. -/
theorem agreesWith_statement (hl : l.Formed P) (rounds depth : Nat) :
    AgreesWith Facing (execute rounds (depth + 1) l.statement) (l.run rounds (l.nesting depth)) := by
  rw [statement_eq]
  unfold run nesting start
  cases hi : l.initializer with
  | none =>
    have hinner : l.inner depth = depth := by
      unfold inner
      rw [hi]
      rfl
    rw [hinner]
    exact (agreesWith_while hl place_facing rounds depth).inNewScopeRight
  | some s =>
    have hinner : l.inner depth = depth - 1 := by
      unfold inner
      rw [hi]
      rfl
    rw [hinner]
    have hs : Agrees Paired (execute rounds depth s) :=
      (agrees_evaluate_execute P rounds depth).2 Paired place_paired s (admits_paired P s)
    have hsequence : Run.sequence (execute rounds depth) [s, l.whileLoop] =
        execute rounds depth s >>= fun _ => execute rounds depth l.whileLoop := by
      unfold Run.sequence
      rw [hl.execute_start hi rounds depth, bind_assoc, bind_assoc, sequence_singleton]
      rfl
    refine AgreesWith.inNewScope ?_
    rw [hsequence]
    cases depth with
    | zero => exact agrees_throw .tooDeep
    | succ inner =>
      dsimp only
      rw [bind_assoc]
      exact hs.bind place_paired fun _ => agreesWith_while hl place_paired rounds inner

end Simulation

/-! More room -/

section Room

variable {n n' : Nesting} {condition condition' : Run Bool} {body body' : Run Completion} {increment increment' : Run Unit}

theorem nesting_within (l : ForLoop) (depth : Nat) : (l.nesting depth).Within (.all (depth + 1)) := by
  have hinner := l.inner_bounds depth
  have hinnermost := l.innermost_bounds (l.inner depth)
  constructor <;> simp only [nesting, Nesting.all] <;> omega

theorem within_nesting (l : ForLoop) (depth : Nat) : (Nesting.all depth).Within (l.nesting (depth + 3)) := by
  have hinner := l.inner_bounds (depth + 3)
  have hinnermost := l.innermost_bounds (l.inner (depth + 3))
  constructor <;> simp only [nesting, Nesting.all] <;> omega

theorem deepens_turns (hc : Deepens condition condition') (hb : Deepens body body')
    (hi : Deepens increment increment') (rounds : Nat) :
    Deepens (turns condition body increment rounds) (turns condition' body' increment' rounds) := by
  induction rounds with
  | zero => exact .refl _
  | succ rounds ih =>
    refine hc.bind fun b => .ite (hb.bind fun c => ?_) (.refl _)
    cases c with
    | returned v => exact .refl _
    | normal => exact hi.bind fun _ => ih

theorem deepens_run (l : ForLoop) (rounds : Nat) (h : n.Within n') : Deepens (l.run rounds n) (l.run rounds n') := by
  have hstart : Deepens (l.start rounds n.initializer) (l.start rounds n'.initializer) := by
    unfold start
    cases l.initializer with
    | none => exact .refl _
    | some s => exact ((deepens_evaluate_execute rounds h.initializer).2 s).bind fun _ => .refl _
  have hholds : Deepens (l.holds rounds n.condition) (l.holds rounds n'.condition) := by
    unfold holds
    cases l.condition with
    | none => exact .refl _
    | some e => exact ((deepens_evaluate_execute rounds h.condition).1 e).map _
  have hadvance : Deepens (l.advance rounds n.increment) (l.advance rounds n'.increment) := by
    unfold advance
    cases l.increment with
    | none => exact .refl _
    | some e => exact ((deepens_evaluate_execute rounds h.increment).1 e).bind fun _ => .refl _
  have hbody := (deepens_evaluate_execute rounds h.body).2 l.body
  exact (Deepens.refl _).bind fun scope =>
    (hstart.bind fun _ => deepens_turns hholds hbody hadvance rounds).inScope scope

end Room

end ForLoop
end Lox
