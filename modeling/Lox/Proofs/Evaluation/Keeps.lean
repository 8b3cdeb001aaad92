import Lox.Proofs.Machine.Evolves
import Lox.Evaluation

/-! Parts of a run and the machine they leave. `Keeps P names run m Q` says that `run` evolves `m`, leaving
`names` behind if it ends well and none if it does not, that it does not get stuck, and that its result is as
`Q` says. There is a rule for each way of putting runs together and a law for each operation. -/

namespace Lox

def Completion.Known (m : Machine) : Completion → Prop
  | normal => True
  | returned v => m.Known v

namespace Run

open Machine

variable {α β : Type} {P : Token → Prop} {names : List String} {m : Machine} {p : Run α} {f : α → Run β}
  {Q Q' : α → Machine → Prop} {R : β → Machine → Prop}

/-- What a run ends in that began in `m`. -/
def EndsFrom (P : Token → Prop) (names : List String) (m : Machine) (Q : α → Machine → Prop) :
    EStateM.Result Interrupt Machine α → Prop
  | .ok a m' => Evolves P names m m' ∧ Q a m'
  | .error i m' => Evolves P [] m m' ∧ ∀ s, i ≠ .stuck s

theorem failed_ne_stuck (e : RuntimeError) (s : Stuck) : Interrupt.failed e ≠ .stuck s := fun h => nomatch h

theorem tooDeep_ne_stuck (s : Stuck) : Interrupt.tooDeep ≠ .stuck s := fun h => nomatch h

theorem unfinished_ne_stuck (s : Stuck) : Interrupt.unfinished ≠ .stuck s := fun h => nomatch h

def Keeps (P : Token → Prop) (names : List String) (p : Run α) (m : Machine)
    (Q : α → Machine → Prop) : Prop := EndsFrom P names m Q (p m)

theorem Keeps.mono (h : Keeps P names p m Q) (hq : ∀ a m', Evolves P names m m' → Q a m' → Q' a m') :
    Keeps P names p m Q' := by
  unfold Keeps at h ⊢
  cases hr : p m with
  | ok a m' => rw [hr] at h; exact ⟨h.1, hq a m' h.1 h.2⟩
  | error i m' => rwa [hr] at h

/-- One run after another. The second starts from a machine that is sound again. -/
theorem Keeps.bind (hm : m.Sound P) (h : Keeps P [] p m Q)
    (hf : ∀ a m', Evolves P [] m m' → m'.Sound P → Q a m' → Keeps P names (f a) m' R) :
    Keeps P names (p >>= f) m R := by
  unfold Keeps at h ⊢
  show EndsFrom P names m R (EStateM.bind p f m)
  unfold EStateM.bind
  cases hr : p m with
  | error i m' => rwa [hr] at h
  | ok a m' =>
    rw [hr] at h
    have hrest := hf a m' h.1 (h.1.steps.sound hm) h.2
    unfold Keeps at hrest
    dsimp only
    cases hr' : f a m' with
    | ok b m'' => rw [hr'] at hrest; exact ⟨h.1.then hrest.1, hrest.2⟩
    | error i m'' => rw [hr'] at hrest; exact ⟨h.1.then hrest.1, hrest.2⟩

/-- A run behind which only a result is put together. -/
theorem Keeps.last {g : α → β} (h : Keeps P names p m fun a m' => R (g a) m') :
    Keeps P names (p >>= fun a => pure (g a)) m R := by
  unfold Keeps at h ⊢
  show EndsFrom P names m R (EStateM.bind p _ m)
  unfold EStateM.bind
  cases hr : p m with
  | ok a m' => rwa [hr] at h
  | error i m' => rwa [hr] at h

/-- A run behind which only `b` is given. -/
theorem Keeps.andThen (h : Keeps P names p m Q) (b : β) (hb : ∀ m', R b m') :
    Keeps P names (p >>= fun _ => pure b) m R :=
  Keeps.last (g := fun _ => b) (h.mono fun _ m' _ _ => hb m')

theorem Keeps.map {g : α → β} (h : Keeps P names p m fun a m' => R (g a) m') :
    Keeps P names (g <$> p) m R := by
  unfold Keeps at h ⊢
  show EndsFrom P names m R (EStateM.map g p m)
  unfold EStateM.map
  cases hr : p m <;> rwa [hr] at h

theorem keeps_pure (a : α) (h : Q a m) : Keeps P [] (pure a) m Q := ⟨.refl P m, h⟩

theorem keeps_fail (token : Token) (problem : RuntimeProblem) : Keeps P names (fail token problem) m Q :=
  ⟨.refl P m, failed_ne_stuck _⟩

theorem keeps_throw {i : Interrupt} (h : ∀ s, i ≠ .stuck s) : Keeps P names (throw i) m Q := ⟨.refl P m, h⟩

theorem keeps_get : Keeps P [] get m fun a m' => a = m ∧ m' = m := ⟨.refl P m, rfl, rfl⟩

theorem keeps_make {operation : Machine → α × Machine} (h : Evolves P names m (operation m).2)
    (hq : Q (operation m).1 (operation m).2) : Keeps P names (make operation) m Q := ⟨h, hq⟩

theorem keeps_modify {operation : Machine → Machine} {Q : PUnit → Machine → Prop}
    (h : Evolves P names m (operation m)) (hq : Q ⟨⟩ (operation m)) :
    Keeps P names (modify operation) m Q := ⟨h, hq⟩

theorem keeps_functionObject {id : FunctionId} {g : FunctionObject} (h : m.functions[id]? = some g) :
    Keeps P [] (functionObject id) m fun a m' => a = g ∧ m' = m := by
  unfold Keeps functionObject
  rw [h]
  exact ⟨.refl P m, rfl, rfl⟩

theorem keeps_instanceObject {id : InstanceId} {o : InstanceObject} (h : m.instances[id]? = some o) :
    Keeps P [] (instanceObject id) m fun a m' => a = o ∧ m' = m := by
  unfold Keeps instanceObject
  rw [h]
  exact ⟨.refl P m, rfl, rfl⟩

/-! Names -/

theorem known_of_get? (hm : m.Sound P) {id : ScopeId} {name : String} {v : Value}
    (h : m.scopes.get? id name = some v) : m.Known v := by
  obtain ⟨i, -, hv⟩ := Option.bind_eq_some_iff.1 h
  exact hm.bindings i name v hv

theorem keeps_lookUp (hm : m.Sound P) (name : Token) :
    Keeps P [] (lookUp name) m fun v m' => m'.Known v := by
  unfold Keeps lookUp
  cases hv : m.scopes.get? m.current name.lexeme with
  | none => exact ⟨.refl P m, failed_ne_stuck _⟩
  | some v => exact ⟨.refl P m, known_of_get? hm hv⟩

theorem keeps_assign (hm : m.Sound P) {name : Token} (hname : name.IsName P) {v : Value}
    (hv : m.Known v) : Keeps P [] (assign name v) m fun _ _ => True := by
  unfold Keeps assign
  cases ho : m.scopes.owner? m.current name.lexeme with
  | none => exact ⟨.refl P m, failed_ne_stuck _⟩
  | some scope => exact ⟨evolves_assign hm ⟨name, hname, rfl⟩ hv (m.scopes.owns_of_owner? ho), trivial⟩

theorem keeps_define (hm : m.Sound P) {name : Token} (hname : name.IsName P) {v : Value}
    (hv : m.Known v) : Keeps P [name.lexeme] (define name v) m fun _ _ => True :=
  keeps_modify (evolves_declare hm ⟨name, hname, rfl⟩ hv) trivial

/-- The scope itself is always there to be read. -/
theorem readAt_zero (scope : ScopeId) (name : String) (m : Machine) :
    readAt scope 0 name m = .ok (((m.scopes.bindings scope).get? name).getD .nil) m := by
  unfold readAt Scopes.getAt?
  rw [m.scopes.ancestor?_zero]
  rfl

/-! Properties -/

/-- No class has a superclass, so a method is found in the class itself or not at all. -/
theorem findMethod?_eq (hm : m.Sound P) (cls : ClassId) (name : String) :
    m.findMethod? cls name = m.classes[cls]?.bind (·.methods.get? name) := by
  have hsuper : m.classes[cls]?.bind ClassObject.superclass = none := by
    cases hc : m.classes[cls]? with
    | none => rfl
    | some c => exact (hm.classes cls c hc).superclass
  unfold findMethod?
  rw [lineage, hsuper]
  simp

theorem exists_of_findMethod? (hm : m.Sound P) {cls : ClassId} {name : String} {id : FunctionId}
    (h : m.findMethod? cls name = some id) :
    ∃ g, m.functions[id]? = some g ∧ g.isInitializer = decide (name = "init") := by
  rw [findMethod?_eq hm] at h
  obtain ⟨c, hc, hid⟩ := Option.bind_eq_some_iff.1 h
  exact (hm.classes cls c hc).methods name id hid

/-- A bound function has a scope of its own, which owns `this`. -/
theorem keeps_bind {g : FunctionObject} {o : InstanceId} (hg : m.SoundFunction P g)
    (ho : m.Known (.instance o)) :
    Keeps P [] (Run.bind g (.instance o)) m fun b m' => b = { g with closure := m.scopes.size } ∧
      m'.SoundFunction P b ∧ m'.scopes.bindings b.closure = [("this", .instance o)] := by
  refine keeps_make (evolves_bind hg ho) ⟨rfl, ⟨?_, hg.declaration⟩, ?_⟩
  · rw [size_bind]
    exact Nat.lt_succ_self _
  · exact (bindings_bind m g _ m.scopes.size).trans (if_pos rfl)

theorem keeps_property (hm : m.Sound P) {object : InstanceId} (ho : m.Known (.instance object))
    (name : Token) : Keeps P [] (property object name) m fun v m' => m'.Known v := by
  obtain ⟨o, hinstance⟩ := ho
  refine (keeps_instanceObject hinstance).bind hm fun o' m' _ _ heq => ?_
  obtain ⟨rfl, rfl⟩ := heq
  cases hv : o'.fields.get? name.lexeme with
  | some v =>
    exact keeps_pure v ((hm.instances object o' hinstance).fields _ v hv)
  | none =>
    refine keeps_get.bind hm fun a m₁ _ _ heq => ?_
    obtain ⟨rfl, rfl⟩ := heq
    cases hmethod : m₁.findMethod? o'.cls name.lexeme with
    | none => exact keeps_fail name _
    | some id =>
      obtain ⟨g, hg, -⟩ := exists_of_findMethod? hm hmethod
      refine (keeps_functionObject hg).bind hm fun g' m₂ _ _ heq => ?_
      obtain ⟨rfl, rfl⟩ := heq
      refine (keeps_bind (hm.functions id g' hg) ⟨o', hinstance⟩).bind hm fun b m₃ _ hm₃ hb => ?_
      obtain ⟨-, hsound, hthis⟩ := hb
      refine Keeps.last (keeps_make (evolves_newFunction hsound) ⟨b, by simp [newFunction], fun _ => ?_⟩)
      show (m₃.scopes.bindings b.closure).owns "this"
      rw [hthis]
      rfl

end Run
end Lox
