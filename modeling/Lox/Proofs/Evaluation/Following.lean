import Lox.Proofs.Evaluation.Standing
import Lox.Proofs.Evaluation.Keeps
import Lox.Proofs.Evaluation.Operators

/-! Parts of an evaluation by lexical scoping and the runs they follow. `Follows P q p D s Q` says that `q`,
from a state in which `D` is what the scopes declare, ends as `p` does from its machine, with the same result and
the same machine, that nothing strays, and that what it leaves is faithful to the text and as `Q` says. There is
a rule for each way of putting runs together and a law for each operation. -/

namespace Lox
namespace Lexical

open Machine

variable {α β : Type} {P : Token → Prop} {D D' : Declarations} {Φ : Frames} {s s' : State}

/-- How an evaluation and the one it follows end. -/
inductive EndsAlike (P : Token → Prop) (D : Declarations) (s : State)
    (Q : α → Declarations → State → Prop) :
    EStateM.Result Halt State α → EStateM.Result Interrupt Machine α → Prop where
  | ok {a : α} {D' : Declarations} {s' : State} : Later P D s D' s' → Q a D' s' →
      EndsAlike P D s Q (.ok a s') (.ok a s'.machine)
  | error {i : Interrupt} {s' : State} : EndsAlike P D s Q (.error (.interrupt i) s') (.error i s'.machine)

def Follows (P : Token → Prop) (q : Lexical α) (p : Run α) (D : Declarations) (s : State)
    (Q : α → Declarations → State → Prop) : Prop := EndsAlike P D s Q (q s) (p s.machine)

variable {q : Lexical α} {p : Run α} {g : α → Lexical β} {f : α → Run β}
  {Q Q' : α → Declarations → State → Prop} {R : β → Declarations → State → Prop}

/-! Rules for runs -/

theorem EndsAlike.trans {x : EStateM.Result Halt State α} {y : EStateM.Result Interrupt Machine α}
    (hl : Later P D s D' s') (h : EndsAlike P D' s' Q x y) : EndsAlike P D s Q x y := by
  cases h with
  | ok hl' hq => exact .ok (hl.trans hl') hq
  | error => exact .error

theorem Follows.mono (h : Follows P q p D s Q) (hq : ∀ a D' s', Later P D s D' s' → Q a D' s' → Q' a D' s') :
    Follows P q p D s Q' := by
  unfold Follows at h ⊢
  generalize q s = x, p s.machine = y at h
  cases h with
  | ok hl ha => exact .ok hl (hq _ _ _ hl ha)
  | error => exact .error

theorem Follows.bind (h : Follows P q p D s Q)
    (hf : ∀ a D' s', Later P D s D' s' → Q a D' s' → Follows P (g a) (f a) D' s' R) :
    Follows P (q >>= g) (p >>= f) D s R := by
  unfold Follows at h
  show EndsAlike P D s R (EStateM.bind q g s) (EStateM.bind p f s.machine)
  unfold EStateM.bind
  generalize q s = x, p s.machine = y at h
  cases h with
  | ok hl ha => exact (hf _ _ _ hl ha).trans hl
  | error => exact .error

theorem Follows.map {g : α → β} (h : Follows P q p D s fun a D' s' => R (g a) D' s') :
    Follows P (g <$> q) (g <$> p) D s R := by
  unfold Follows at h
  show EndsAlike P D s R (EStateM.map g q s) (EStateM.map g p s.machine)
  unfold EStateM.map
  generalize q s = x, p s.machine = y at h
  cases h with
  | ok hl ha => exact .ok hl ha
  | error => exact .error

theorem follows_pure (hs : Faithful P D s) {a : α} (h : Q a D s) : Follows P (pure a) (pure a) D s Q :=
  .ok hs.later h

/-- A run behind which only `b` is given. -/
theorem Follows.andThen (h : Follows P q p D s Q) {b : β} (hb : ∀ a D' s', Later P D s D' s' → Q a D' s' → R b D' s') :
    Follows P (q >>= fun _ => pure b) (p >>= fun _ => pure b) D s R :=
  h.bind fun a D' s' hl hq => follows_pure hl.faithful (hb a D' s' hl hq)

theorem follows_throw (i : Interrupt) : Follows P (throw (.interrupt i) : Lexical α) (throw i) D s Q := .error

theorem follows_lift (h : ∀ a m, p s.machine = .ok a m →
    ∃ D', Later P D s D' { s with machine := m } ∧ Q a D' { s with machine := m }) :
    Follows P (lift p) p D s Q := by
  unfold Follows lift
  cases hp : p s.machine with
  | error i m => exact .error
  | ok a m =>
    obtain ⟨D', hl, hq⟩ := h a m hp
    exact .ok hl hq

theorem follows_make {operation : Machine → α × Machine}
    (hl : Later P D s D' { s with machine := (operation s.machine).2 })
    (hq : Q (operation s.machine).1 D' { s with machine := (operation s.machine).2 }) :
    Follows P (lift (Run.make operation)) (Run.make operation) D s Q := .ok hl hq

theorem follows_modify {operation : Machine → Machine} {Q : PUnit → Declarations → State → Prop}
    (hl : Later P D s D' { s with machine := operation s.machine })
    (hq : Q ⟨⟩ D' { s with machine := operation s.machine }) :
    Follows P (lift (modify operation)) (modify operation) D s Q := .ok hl hq

theorem follows_fail (token : Token) (problem : RuntimeProblem) :
    Follows P (lift (Run.fail token problem) : Lexical α) (Run.fail token problem) D s Q := .error

theorem follows_get {g : State → Lexical β} {f : Machine → Run β} (h : Follows P (g s) (f s.machine) D s R) :
    Follows P (get >>= g) (get >>= f) D s R := h

/-- A step that only looks up where a function is written has no counterpart. -/
theorem follows_context {id : FunctionId} {h : FunctionObject} {g : Context → Lexical β} {p : Run β}
    (hw : Written P s Φ id h) (hf : Follows P (g Φ.context) p D s R) :
    Follows P (context id >>= g) p D s R := by
  unfold Follows at hf ⊢
  show EndsAlike P D s R (EStateM.bind (context id) g s) _
  unfold EStateM.bind context
  rw [hw.context]
  exact hf

theorem follows_functionObject {id : FunctionId} {h : FunctionObject} (hs : Faithful P D s)
    (hw : Written P s Φ id h) :
    Follows P (lift (Run.functionObject id)) (Run.functionObject id) D s fun a D' s' => a = h ∧ D' = D ∧ s' = s := by
  refine follows_lift fun a m hr => ?_
  unfold Run.functionObject at hr
  rw [hw.function] at hr
  cases hr
  exact ⟨D, hs.later, rfl, rfl, rfl⟩

/-- A run that changes nothing and gives no function. -/
def Plain (p : Run Value) : Prop := ∀ m v m', p m = .ok v m' → m' = m ∧ ∀ id, v ≠ .function id

theorem plain_of_outright {p : Run Value} (h : Run.Outright p) : Plain p := by
  intro m v m' hr
  cases h with
  | gives hv =>
    cases hr
    exact ⟨rfl, hv⟩
  | fails => cases hr
  | stuck => cases hr

theorem Plain.follows {p : Run Value} (h : Plain p) (hs : Faithful P D s) :
    Follows P (lift p) p D s fun v D' s' => Placed P D' s' v := by
  refine follows_lift fun v m hr => ?_
  obtain ⟨rfl, hv⟩ := h _ _ _ hr
  exact ⟨D, hs.later, placed_of_ne hv⟩

/-! Variables -/

section Variables

variable (hs : Faithful P D s) (hst : Stands D s.machine.scopes Φ s.machine.current)

include hs

theorem placed_of_get? {scope : ScopeId} {name : String} {v : Value}
    (h : s.machine.scopes.get? scope name = some v) : Placed P D s v := by
  obtain ⟨owner, -, hv⟩ := Option.bind_eq_some_iff.1 h
  exact hs.bindings owner name v hv

/-- A name that is looked up by search, as `this` is. -/
theorem follows_search (name : Token) :
    Follows P (lift (Run.lookUp name)) (Run.lookUp name) D s fun v D' s' => Placed P D' s' v := by
  refine follows_lift fun v m hr => ?_
  unfold Run.lookUp at hr
  cases hv : s.machine.scopes.get? s.machine.current name.lexeme with
  | none => rw [hv] at hr; cases hr
  | some w =>
    rw [hv] at hr
    cases hr
    exact ⟨D, hs.later, placed_of_get? hs hv⟩

/-- A value that is assigned by search goes to a scope that has the name already. -/
theorem follows_assignment (name : Token) {v : Value} (hv : Placed P D s v) :
    Follows P (lift (Run.assign name v)) (Run.assign name v) D s fun _ D' s' => Placed P D' s' v := by
  refine follows_lift fun u m hr => ?_
  unfold Run.assign at hr
  cases ho : s.machine.scopes.owner? s.machine.current name.lexeme with
  | none => rw [ho] at hr; cases hr
  | some owner =>
    rw [ho] at hr
    cases hr
    have howns := s.machine.scopes.owns_of_owner? ho
    have hl := hs.later_define (s.machine.scopes.lt_size_of_owns howns)
      (fun hne => hs.declares owner _ hne howns) (hv.mono (extends_define ..))
    exact ⟨D, hl, hv.mono hl.toExtends⟩

include hst

theorem resolves_of_stands {name : String} (hallows : Φ.allows name) : resolves Φ.context name s.machine := by
  unfold resolves
  split
  · next distance hd =>
    obtain ⟨owner, howner, hancestor⟩ := hst.owner?_of_distance? hs.declares hallows hd
    rw [howner]
    simpa using hancestor
  · next hd =>
    rw [hst.owner?_of_none hs.declares hd]
    split <;> rfl

theorem checked_eq {name : Token} (hallows : Φ.allows name.lexeme) : checked Φ.context name s = .ok () s := by
  unfold checked
  rw [if_pos (resolves_of_stands hs hst hallows)]

/-- A name that is in order is read where the search for it ends. -/
theorem lookUp_eq {name : Token} (hallows : Φ.allows name.lexeme) :
    lookUp Φ.context name s = lift (Run.lookUp name) s := by
  show EStateM.bind (checked Φ.context name) _ s = _
  unfold EStateM.bind
  rw [checked_eq hs hst hallows]
  cases hd : Φ.context.distance? name.lexeme with
  | some distance =>
    obtain ⟨owner, howner, hancestor⟩ := hst.owner?_of_distance? hs.declares hallows hd
    obtain ⟨v, hv⟩ := Option.isSome_iff_exists.1 (s.machine.scopes.owns_of_owner? howner)
    show lift (readAt distance name.lexeme) s = _
    unfold lift readAt Run.readAt Run.lookUp Scopes.getAt? Scopes.get?
    rw [howner, hancestor]
    simp [hv]
  | none =>
    show lift (readGlobal name) s = _
    unfold lift readGlobal Run.lookUp Scopes.get?
    rw [hst.owner?_of_none hs.declares hd]
    cases hv : (s.machine.scopes.bindings globals).get? name.lexeme with
    | none => simp [Bindings.owns, hv]
    | some v => simp [Bindings.owns, hv]

/-- A name that is in order is assigned where the search for it ends. -/
theorem assign_eq {name : Token} (hallows : Φ.allows name.lexeme) (v : Value) :
    assign Φ.context name v s = lift (Run.assign name v) s := by
  show EStateM.bind (checked Φ.context name) _ s = _
  unfold EStateM.bind
  rw [checked_eq hs hst hallows]
  cases hd : Φ.context.distance? name.lexeme with
  | some distance =>
    obtain ⟨owner, howner, hancestor⟩ := hst.owner?_of_distance? hs.declares hallows hd
    show lift (assignAt distance name.lexeme v) s = _
    unfold lift assignAt Run.assign Scopes.assignAt?
    rw [howner, hancestor]
    rfl
  | none =>
    show lift (assignGlobal name v) s = _
    unfold lift assignGlobal Run.assign
    rw [hst.owner?_of_none hs.declares hd]
    cases (s.machine.scopes.bindings globals).owns name.lexeme <;> rfl

theorem follows_lookUp {name : Token} (hallows : Φ.allows name.lexeme) :
    Follows P (lookUp Φ.context name) (Run.lookUp name) D s fun v D' s' => Placed P D' s' v := by
  unfold Follows
  rw [lookUp_eq hs hst hallows]
  exact follows_search hs name

theorem follows_assign {name : Token} (hallows : Φ.allows name.lexeme) {v : Value} (hv : Placed P D s v) :
    Follows P (assign Φ.context name v) (Run.assign name v) D s fun _ D' s' => Placed P D' s' v := by
  unfold Follows
  rw [assign_eq hs hst hallows]
  exact follows_assignment hs name hv

/-- A declaration gives a name to the scope that the text declares it in. The value may be a function that knows
itself by that name. -/
theorem follows_define {name : Token} (hname : ∀ F ∈ Φ.head?, name.lexeme ∈ F.declared) {v : Value}
    (hv : let s' : State := { s with machine := s.machine.define s.machine.current name.lexeme v }
      Stands D s'.machine.scopes (Φ.settle [name.lexeme]) s'.machine.current → Placed P D s' v) :
    Follows P (lift (Run.define name v)) (Run.define name v) D s fun _ D' s' =>
      Stands D' s'.machine.scopes (Φ.settle [name.lexeme]) s'.machine.current := by
  have hcurrent := hst.lt_size hs.globals
  have hsettled := (hst.mono (extends_define D s s.machine.current name.lexeme v)).settle
    (List.forall_mem_singleton.2 ((Scopes.owns_define _ _ _ _ _ v hcurrent).2 (.inr ⟨rfl, rfl⟩)))
  exact follows_modify (hs.later_define hcurrent (fun hne => hst.mem_declared hname hne) (hv hsettled)) hsettled

end Variables

/-! Functions and methods -/

/-- A function is made with the scopes of the text that are kept for it. -/
theorem follows_newFunction (hs : Faithful P D s) (make : Machine → FunctionObject)
    (hformed : (make s.machine).declaration.Formed P)
    (horderly : Stmt.orderlyAll (.ofBody (make s.machine).declaration.params (make s.machine).declaration.body :: Φ)
      (make s.machine).declaration.body) :
    Follows P (remember Φ.context (Run.make fun m => m.newFunction (make m)))
      (Run.make fun m => m.newFunction (make m)) D s fun id _ s' => Written P s' Φ id (make s.machine) :=
  .ok (hs.later_newFunction _ Φ.context) (hs.written_newFunction hformed horderly)

theorem method_of_findMethod? (hs : Faithful P D s) {cls : ClassId} {name : String} {id : FunctionId}
    (h : s.machine.findMethod? cls name = some id) : Method P D s id := by
  obtain ⟨c, -, hc⟩ := List.exists_of_findSome?_eq_some h
  obtain ⟨k, hk, hid⟩ := Option.bind_eq_some_iff.1 hc
  exact hs.methods c k hk name id hid

/-- A method is bound to an instance in a scope of its own, which the text has around it. -/
theorem follows_bind (hs : Faithful P D s) {h : FunctionObject} (hclosure : Stands D s.machine.scopes Φ h.closure)
    (object : InstanceId) :
    Follows P (lift (Run.bind h (.instance object))) (Run.bind h (.instance object)) D s fun b D' s' =>
      b.declaration = h.declaration ∧ Stands D' s'.machine.scopes (.this :: Φ) b.closure := by
  obtain ⟨hl, hstands⟩ := hs.later_bind hclosure (placed_of_ne (v := .instance object) nofun)
  exact follows_make hl ⟨rfl, hstands⟩

theorem follows_property (hs : Faithful P D s) (object : InstanceId) (name : Token) :
    Follows P (property object name) (Run.property object name) D s fun v D' s' => Placed P D' s' v := by
  have hinstance : Follows P (lift (Run.instanceObject object)) (Run.instanceObject object) D s fun o D' s' =>
      ∀ n v, o.fields.get? n = some v → Placed P D' s' v := by
    refine follows_lift fun o m hr => ?_
    unfold Run.instanceObject at hr
    cases ho : s.machine.instances[object]? with
    | none => rw [ho] at hr; cases hr
    | some o' =>
      rw [ho] at hr
      cases hr
      exact ⟨D, hs.later, hs.fields object _ ho⟩
  refine hinstance.bind fun o D₁ s₁ hl₁ hfields => ?_
  cases hv : o.fields.get? name.lexeme with
  | some v => exact follows_pure hl₁.faithful (hfields _ v hv)
  | none =>
    refine follows_get ?_
    cases hmethod : s₁.machine.findMethod? o.cls name.lexeme with
    | none => exact follows_fail name _
    | some id =>
      obtain ⟨Φ, h, hw, hclosure⟩ := method_of_findMethod? hl₁.faithful hmethod
      refine (follows_functionObject hl₁.faithful hw).bind fun h' D₂ s₂ hl₂ heq => ?_
      obtain ⟨rfl, rfl, rfl⟩ := heq
      refine (follows_bind hl₂.faithful hclosure object).bind fun b D₃ s₃ hl₃ hb => ?_
      obtain ⟨hdeclaration, hstands⟩ := hb
      refine follows_context (hw.mono hl₃.toExtends) ?_
      refine (follows_newFunction hl₃.faithful (fun _ => b) (hdeclaration ▸ hw.formed)
        (hdeclaration ▸ hw.orderly)).bind fun id' D₄ s₄ hl₄ hwritten => ?_
      refine follows_pure hl₄.faithful fun id heq => ?_
      cases heq
      exact ⟨_, b, hwritten, hstands.mono hl₄.toExtends⟩

end Lexical
end Lox
