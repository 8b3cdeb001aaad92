import Lox.Proofs.Session.Serving

/-! `this` and initializers in all sessions. Whatever sources a session is fed, what is said of scopes, functions,
calls and methods here holds of its machine, and of every machine that a run of it goes through. -/

namespace Lox
namespace Machine

open Run

/-- What owns `this`, and what is bound to an instance. -/
structure Receivers (m : Machine) : Prop where
  made : ∀ s, (m.scopes.bindings s).owns "this" →
    ∃ (m₀ : Machine) (f : FunctionObject) (o : InstanceId), m₀.Reachable Token.Spelled ∧
      Steps Token.Spelled (m₀.bind f (.instance o)).2 m ∧ s = (m₀.bind f (.instance o)).1.closure ∧
        m.IsReceiver s o
  kept : ∀ m', Steps Token.Spelled m m' → ∀ s o, m.IsReceiver s o → m'.IsReceiver s o
  scopes : ∀ s n v, (m.scopes.bindings s).get? n = some v → m.Bound v
  fields : ∀ (o : InstanceId) i n v, m.instances[o]? = some i → i.fields.get? n = some v → m.Bound v
  results : ∀ rounds depth (e : Expr), e.Formed Token.Spelled → ∀ v m',
    evaluate rounds depth e m = .ok v m' → m'.Bound v

variable {m : Machine} {o : InstanceId} {place : Place}

theorem Reachable.receivers (h : m.Reachable Token.Spelled) : m.Receivers where
  made _ howns := h.receiver thisReserved_spelled howns
  kept _ hsteps _ _ hreceiver := hreceiver.steps thisReserved_spelled hsteps
  scopes s n v hv := (h.sound.bindings s n v hv).bound thisReserved_spelled h.sound
  fields o i n v hi hv := ((h.sound.instances o i hi).fields n v hv).bound thisReserved_spelled h.sound
  results rounds depth e he v m' hr := by
    obtain ⟨hev, hv⟩ := ((evaluates_executes _ rounds depth).1 e he m h.sound).ok hr
    exact hv.bound thisReserved_spelled (hev.steps.sound h.sound)

/-- A run of code leaves the machine where it was. -/
theorem Serves.evaluate (h : Serves .reachable o place m) (rounds depth : Nat) {e : Expr}
    (he : e.Formed Token.Spelled) : Serves .reachable o place ((Lox.evaluate rounds depth e).after m) :=
  have hafter := ((evaluates_executes _ rounds depth).1 e he m h.reachable.sound).evolves_after
  h.later hafter.1 fun _ => hafter.2

theorem Serves.execute (h : Serves .reachable o place m) (rounds depth : Nat) {s : Stmt}
    (hs : s.Formed Token.Spelled) : Serves .reachable o place ((Lox.execute rounds depth s).after m) :=
  have hafter := ((evaluates_executes _ rounds depth).2 s hs m h.reachable.sound).evolves_after
  h.later hafter.1 fun _ => hafter.2

end Machine

/-- A method that does nothing. -/
def Machine.greet : FunctionObject := ⟨⟨⟨.identifier, "greet", .nil, 1⟩, [], []⟩, Machine.globals, false⟩

/-- A machine in which there are a class with that method and an instance of the class. -/
def Machine.greeting : Machine :=
  let m := ((Machine.fresh fun _ => 0).newFunction Machine.greet).2
  let m := (m.newClass ⟨"Greeter", none, [("greet", 0)]⟩).2
  (m.newInstance 0).2

theorem Machine.formed_greet : Machine.greet.declaration.Formed Token.Spelled :=
  ⟨⟨rfl, fun _ => by decide⟩, List.forall_mem_nil _, List.forall_mem_nil _⟩

end Lox
