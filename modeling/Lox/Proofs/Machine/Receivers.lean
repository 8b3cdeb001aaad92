import Lox.Proofs.Machine.Evolves
import Lox.Proofs.Token.Spelled
import Mathlib.Data.List.Find

/-! `this` in the scopes of a machine whose programs are spelled as words are. The scopes that own `this` are
those that `bind` made for an instance, and they stay as they are. -/

namespace Lox

/-- No name is spelled `this`, since that is a reserved word. -/
theorem thisReserved_spelled : ThisReserved Token.Spelled := by
  rintro ⟨t, ⟨hk, hs⟩, hl⟩
  exact hs.lexeme_ne hk hl

namespace Machine

variable {P : Token → Prop} {m m' : Machine} {o : InstanceId} {s : ScopeId}

/-- Whether a scope is one that was made for an instance: it owns `this`, and nothing else. -/
def IsReceiver (m : Machine) (s : ScopeId) (o : InstanceId) : Prop :=
  m.scopes.bindings s = [("this", .instance o)]

/-- Whether a value is no initializer, or one that is bound to an instance. -/
def Bound (m : Machine) (v : Value) : Prop :=
  ∀ (id : FunctionId) f, v = .function id → m.functions[id]? = some f → f.isInitializer →
    ∃ o, m.IsReceiver f.closure o

theorem IsReceiver.owns (h : m.IsReceiver s o) : (m.scopes.bindings s).owns "this" := by
  rw [h]
  rfl

theorem IsReceiver.lt_size (h : m.IsReceiver s o) : s < m.scopes.size := m.scopes.lt_size_of_owns h.owns

/-- It stays the scope of that instance, whatever is done. -/
theorem IsReceiver.steps (h : m.IsReceiver s o) (hp : ThisReserved P) (hsteps : Steps P m m') :
    m'.IsReceiver s o :=
  ((Steps.receiver hsteps hp h.lt_size).2 h.owns).trans h

theorem IsReceiver.get?_this (h : m.IsReceiver s o) : m.scopes.get? s "this" = some (.instance o) := by
  unfold Scopes.get?
  rw [m.scopes.owner?_of_owns h.owns, Option.bind_some, h]
  rfl

theorem isReceiver_bind (m : Machine) (f : FunctionObject) (o : InstanceId) :
    (m.bind f (.instance o)).2.IsReceiver m.scopes.size o :=
  (bindings_bind m f (.instance o) m.scopes.size).trans (if_pos rfl)

theorem Known.bound {v : Value} (h : m.Known v) (hp : ThisReserved P) (hm : m.Sound P) : m.Bound v := by
  rintro id f rfl hf hinit
  obtain ⟨g, hg, hthis⟩ := h
  obtain rfl : g = f := Option.some.inj (hg.symm.trans hf)
  exact hm.receivers hp _ (hthis hinit)

/-- Only `bind` makes a scope that owns `this`. -/
theorem Step.makes_receiver (hstep : Step P m m') (hp : ThisReserved P)
    (howns : (m'.scopes.bindings s).owns "this") :
    (m.scopes.bindings s).owns "this" ∨
      ∃ f o, m' = (m.bind f (.instance o)).2 ∧ s = (m.bind f (.instance o)).1.closure := by
  by_cases hs : s < m.scopes.size
  · exact .inl ((hstep.receiver hp hs).1.1 howns)
  have hnone : ¬ (m.scopes.bindings s).owns "this" := fun h => hs (m.scopes.lt_size_of_owns h)
  cases hstep with
  | define hscope hname => exact absurd ((owns_this_define hscope hname hp).1 howns) hnone
  | newScope =>
    rw [show (m.newScope _).2.scopes.bindings s = _ from Scopes.bindings_new ..] at howns
    exact absurd howns hnone
  | @bind f o =>
    refine .inr ⟨f, o, rfl, ?_⟩
    rw [bindings_bind] at howns
    split at howns
    · next he => exact he
    · exact absurd howns hnone
  | newFunction | newClass | newInstance | setField | output | tick | move => exact absurd howns hnone

/-- A scope that owns `this` was made by `bind` somewhere on the way, and is as it was made. -/
theorem Reachable.receiver (h : m.Reachable P) (hp : ThisReserved P)
    (howns : (m.scopes.bindings s).owns "this") :
    ∃ (m₀ : Machine) (f : FunctionObject) (o : InstanceId), m₀.Reachable P ∧ Steps P (m₀.bind f (.instance o)).2 m ∧
      s = (m₀.bind f (.instance o)).1.closure ∧ m.IsReceiver s o := by
  obtain ⟨clock, hsteps⟩ := h
  induction hsteps with
  | refl =>
    rw [bindings_fresh] at howns
    split at howns <;> cases howns
  | @tail m₁ m₂ hsteps hstep ih =>
    rcases hstep.makes_receiver hp howns with hold | ⟨f, o, rfl, rfl⟩
    · obtain ⟨m₀, f, o, hm₀, hfrom, hs, hreceiver⟩ := ih hold
      exact ⟨m₀, f, o, hm₀, hfrom.tail hstep, hs, hreceiver.steps hp (.single hstep)⟩
    · exact ⟨m₁, f, o, ⟨clock, hsteps⟩, .refl, rfl, isReceiver_bind m₁ f o⟩

end Machine
end Lox
