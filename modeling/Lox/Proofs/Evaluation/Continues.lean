import Lox.Proofs.Machine.Grows
import Lox.Proofs.Evaluation.Operators

/-! What a run leaves of a machine, however it ends. On every way out of every run the current scope is the one
the run began in, what was written stays written, and no name, object or field that there was is gone. Nothing
need be known of the program or of the machine. -/

namespace Lox

namespace Machine

/-- What a machine keeps of one that it came from. -/
structure Continues (m m' : Machine) : Prop where
  current : m'.current = m.current
  output : ∃ text, m'.output = m.output ++ text
  grows : m.Grows m'
  fields : ∀ (o : InstanceId) i n, m.instances[o]? = some i → i.fields.owns n →
    ∃ i', m'.instances[o]? = some i' ∧ i'.fields.owns n

variable {m m' m'' : Machine}

theorem Continues.refl (m : Machine) : m.Continues m :=
  ⟨rfl, ⟨"", String.append_empty.symm⟩, .refl m, fun _ i _ hi hn => ⟨i, hi, hn⟩⟩

theorem Continues.trans (h : m.Continues m') (h' : m'.Continues m'') : m.Continues m'' where
  current := h'.current.trans h.current
  output := by
    obtain ⟨text, ht⟩ := h.output
    obtain ⟨text', ht'⟩ := h'.output
    exact ⟨text ++ text', by rw [ht', ht, String.append_assoc]⟩
  grows := h.grows.trans h'.grows
  fields o i n hi hn := by
    obtain ⟨i', hi', hn'⟩ := h.fields o i n hi hn
    exact h'.fields o i' n hi' hn'

/-- A run in another scope, come back from. -/
theorem Continues.back {scope : ScopeId} (h : Continues { m with current := scope } m') :
    m.Continues { m' with current := m.current } where
  current := rfl
  output := h.output
  grows := ⟨h.grows.scopes, h.grows.parents, h.grows.owns, h.grows.functions, h.grows.classes,
    h.grows.instances, h.grows.natives⟩
  fields := h.fields

theorem continues_define (m : Machine) (scope : ScopeId) (name : String) (v : Value) :
    m.Continues (m.define scope name v) :=
  { Continues.refl m with grows := grows_define m scope name v }

theorem continues_newScope (m : Machine) (parent : ScopeId) : m.Continues (m.newScope parent).2 :=
  { Continues.refl m with grows := grows_newScope m parent }

theorem continues_newFunction (m : Machine) (f : FunctionObject) : m.Continues (m.newFunction f).2 :=
  { Continues.refl m with grows := grows_newFunction m f }

theorem continues_newClass (m : Machine) (c : ClassObject) : m.Continues (m.newClass c).2 :=
  { Continues.refl m with grows := grows_newClass m c }

theorem continues_newInstance (m : Machine) (cls : ClassId) : m.Continues (m.newInstance cls).2 :=
  { Continues.refl m with
    grows := grows_newInstance m cls
    fields := fun _ i _ hi hn => ⟨i, getElem?_push_of_some hi, hn⟩ }

theorem continues_setField (m : Machine) (object : InstanceId) (name : String) (v : Value) :
    m.Continues (m.setField object name v) :=
  { Continues.refl m with
    grows := grows_setField m object name v
    fields := fun o i n hi hn => by
      simp only [setField, Array.getElem?_modify, hi, Option.map_some]
      split
      · exact ⟨_, rfl, by simp [Bindings.owns_set, hn]⟩
      · exact ⟨i, rfl, hn⟩ }

theorem continues_bind (m : Machine) (f : FunctionObject) (receiver : Value) :
    m.Continues (m.bind f receiver).2 :=
  (continues_newScope m f.closure).trans (continues_define _ _ "this" receiver)

/-- What is written and how often the clock was read is no part of the store. -/
theorem grows_aside (m : Machine) (output : String) (readings : Nat) : m.Grows { m with output, readings } :=
  ⟨Nat.le_refl _, fun _ _ => rfl, fun _ _ => id, fun _ _ => id, fun _ _ => id, fun _ i h => ⟨i, h, rfl⟩,
    fun _ _ => id⟩

theorem continues_write (m : Machine) (text : String) : m.Continues (m.write text) :=
  { Continues.refl m with
    output := ⟨text ++ "\n", String.append_assoc ..⟩
    grows := grows_aside m _ m.readings }

theorem continues_tick (m : Machine) : m.Continues { m with readings := m.readings + 1 } :=
  { Continues.refl m with grows := grows_aside m m.output _ }

theorem continues_foldl_define (scope : ScopeId) (ps : List (Token × Value)) :
    ∀ m : Machine, m.Continues (ps.foldl (fun m p => m.define scope p.1.lexeme p.2) m) := by
  induction ps with
  | nil => exact Continues.refl
  | cons p ps ih => exact fun m => (continues_define m scope p.1.lexeme p.2).trans (ih _)

end Machine

namespace Run

open Machine

variable {α β : Type}

/-- The machine that a run leaves, however it ends. -/
def after (p : Run α) (m : Machine) : Machine :=
  match p m with
  | .ok _ m' | .error _ m' => m'

theorem after_bind (p : Run α) (f : α → Run β) (m : Machine) :
    (p >>= f).after m = match p m with
      | .ok a m' => (f a).after m'
      | .error _ m' => m' := by
  show (match EStateM.bind p f m with | .ok _ m' | .error _ m' => m' : Machine) = _
  unfold EStateM.bind
  cases p m <;> rfl

theorem after_map (f : α → β) (p : Run α) (m : Machine) : (f <$> p).after m = p.after m := by
  show (match EStateM.map f p m with | .ok _ m' | .error _ m' => m' : Machine) = _
  unfold EStateM.map after
  cases p m <;> rfl

/-- Coming back from another scope changes nothing but the current scope. -/
theorem after_inScope (scope : ScopeId) (p : Run α) (m : Machine) :
    (inScope scope p).after m = { p.after { m with current := scope } with current := m.current } := by
  unfold after inScope
  dsimp only
  cases p { m with current := scope } <;> rfl

/-- Taking up an exhaustion changes nothing. -/
theorem after_limiting (paren : Token) (p : Run α) (m : Machine) : (limiting paren p).after m = p.after m := by
  unfold after limiting
  rcases p m with _ | ⟨_ | _ | _ | _, _⟩ <;> rfl

/-- Whether a run continues every machine. -/
def Continues (p : Run α) : Prop := ∀ m : Machine, m.Continues (p.after m)

variable {p : Run α} {f : α → Run β}

theorem Continues.bind (hp : Continues p) (hf : ∀ a, Continues (f a)) : Continues (p >>= f) := by
  intro m
  have h := hp m
  rw [after_bind]
  unfold after at h
  cases hr : p m with
  | ok a m' => rw [hr] at h; exact h.trans (hf a m')
  | error i m' => rwa [hr] at h

theorem Continues.map (f : α → β) (hp : Continues p) : Continues (f <$> p) := by
  intro m
  rw [after_map]
  exact hp m

theorem continues_pure (a : α) : Continues (pure a) := Continues.refl

theorem continues_throw (i : Interrupt) : Continues (throw i : Run α) := Continues.refl

theorem continues_fail (token : Token) (problem : RuntimeProblem) : Continues (fail token problem : Run α) :=
  continues_throw _

theorem continues_get : Continues get := Continues.refl

theorem continues_make {operation : Machine → α × Machine} (h : ∀ m : Machine, m.Continues (operation m).2) :
    Continues (make operation) := h

theorem continues_modify {operation : Machine → Machine} (h : ∀ m : Machine, m.Continues (operation m)) :
    Continues (modify operation) := h

/-- A run behind which only its result is put together. -/
theorem Continues.last {f : α → β} (hp : Continues p) : Continues (p >>= fun a => pure (f a)) :=
  hp.bind fun a => continues_pure (f a)

theorem continues_ite {c : Prop} [Decidable c] {q : Run α} (hp : Continues p) (hq : Continues q) :
    Continues (if c then p else q) := by
  split
  · exact hp
  · exact hq

theorem Continues.mapM {f : α → Run β} (h : ∀ a, Continues (f a)) (as : List α) : Continues (as.mapM f) := by
  induction as with
  | nil => exact continues_pure []
  | cons a as ih =>
    rw [List.mapM_cons]
    exact (h a).bind fun _ => ih.last

/-! Operations -/

theorem continues_functionObject (id : FunctionId) : Continues (functionObject id) := by
  intro m
  unfold after functionObject
  cases m.functions[id]? <;> exact .refl m

theorem continues_instanceObject (id : InstanceId) : Continues (instanceObject id) := by
  intro m
  unfold after instanceObject
  cases m.instances[id]? <;> exact .refl m

theorem continues_lookUp (name : Token) : Continues (lookUp name) := by
  intro m
  unfold after lookUp
  cases m.scopes.get? m.current name.lexeme <;> exact .refl m

theorem continues_assign (name : Token) (v : Value) : Continues (assign name v) := by
  intro m
  unfold after assign
  cases m.scopes.owner? m.current name.lexeme with
  | none => exact .refl m
  | some scope => exact continues_define m scope name.lexeme v

theorem continues_declare (name : Token) (v : Value) : Continues (define name v) :=
  continues_modify fun m => continues_define m m.current name.lexeme v

theorem continues_property (object : InstanceId) (name : Token) : Continues (property object name) := by
  refine (continues_instanceObject object).bind fun o => ?_
  split
  · exact continues_pure _
  · refine continues_get.bind fun m => ?_
    split
    · exact continues_fail name _
    · next f _ =>
      exact (continues_functionObject f).bind fun f => (continues_make fun m => continues_bind m f _).bind
        fun f => (continues_make fun m => continues_newFunction m f).last

theorem continues_readAt (scope : ScopeId) (distance : Nat) (name : String) :
    Continues (readAt scope distance name) := by
  intro m
  unfold after readAt
  cases m.scopes.getAt? scope distance name <;> exact .refl m

theorem Outright.continues {p : Run Value} (h : Outright p) : Continues p := by
  cases h with
  | gives => exact continues_pure _
  | fails token problem => exact continues_fail token problem
  | stuck => exact continues_throw _

/-! Statements and calls -/

theorem Continues.inScope (scope : ScopeId) (hp : Continues p) : Continues (inScope scope p) := by
  intro m
  rw [after_inScope]
  exact (hp { m with current := scope }).back

theorem Continues.limiting (paren : Token) (hp : Continues p) : Continues (limiting paren p) := by
  intro m
  rw [after_limiting]
  exact hp m

theorem continues_sequence {execute : Stmt → Run Completion} (h : ∀ s, Continues (execute s)) (ss : List Stmt) :
    Continues (sequence execute ss) := by
  induction ss with
  | nil => exact continues_pure _
  | cons s ss ih =>
    refine (h s).bind fun c => ?_
    cases c with
    | normal => exact ih
    | returned v => exact continues_pure _

theorem continues_block {execute : Stmt → Run Completion} (h : ∀ s, Continues (execute s)) (scope : ScopeId)
    (ss : List Stmt) : Continues (block execute scope ss) := (continues_sequence h ss).inScope scope

theorem continues_loop {condition : Run Bool} {body : Run Completion} (hc : Continues condition)
    (hb : Continues body) (rounds : Nat) : Continues (loop condition body rounds) := by
  induction rounds with
  | zero => exact continues_throw _
  | succ rounds ih =>
    refine hc.bind fun b => continues_ite (hb.bind fun c => ?_) (continues_pure _)
    cases c with
    | normal => exact ih
    | returned v => exact continues_pure _

theorem continues_enter (f : FunctionObject) (arguments : List Value) : Continues (enter f arguments) :=
  continues_make fun m => (continues_newScope m f.closure).trans (continues_foldl_define ..)

theorem continues_result (f : FunctionObject) (c : Completion) : Continues (result f c) := by
  refine continues_ite (continues_readAt f.closure 0 "this") ?_
  cases c <;> exact continues_pure _

section Calls

variable {body : Body} (h : ∀ scope ss, Continues (body scope ss))

include h

theorem continues_callFunction (f : FunctionObject) (arguments : List Value) :
    Continues (callFunction body f arguments) :=
  (continues_enter f arguments).bind fun scope => (h scope f.declaration.body).bind fun c => continues_result f c

theorem continues_construct (cls : ClassId) (arguments : List Value) :
    Continues (construct body cls arguments) := by
  refine (continues_make fun m => continues_newInstance m cls).bind fun object => continues_get.bind fun m => ?_
  split
  · exact continues_pure _
  · next f _ =>
    exact (continues_functionObject f).bind fun f => (continues_make fun m => continues_bind m f _).bind fun f =>
      (continues_callFunction h f arguments).last

theorem continues_call (callee : Value) (arguments : List Value) : Continues (call body callee arguments) := by
  unfold call
  split
  · next f => exact (continues_functionObject f).bind fun f => continues_callFunction h f arguments
  · next cls => exact continues_construct h cls arguments
  · next native =>
    intro m
    unfold after callNative
    rcases m.natives[native]?.map NativeObject.rule with _ | (_ | _ | _ | _)
    case some.clock => exact continues_tick m
    all_goals exact .refl m
  · exact continues_throw _

theorem continues_checkedCall (paren : Token) (callee : Value) (arguments : List Value) :
    Continues (checkedCall body paren callee arguments) := by
  refine continues_get.bind fun m => ?_
  split
  · exact continues_fail paren _
  · exact continues_ite ((continues_call h callee arguments).limiting paren) (continues_fail paren _)

end Calls

/-! Declarations -/

theorem continues_closure (d : Declaration) (isInitializer : Bool) : Continues (closure d isInitializer) :=
  continues_make fun m => continues_newFunction m _

theorem continues_methods (ss : List Stmt) (table : Bindings FunctionId) : Continues (methods ss table) := by
  induction ss generalizing table with
  | nil => exact continues_pure table
  | cons s ss ih =>
    unfold methods
    split
    · exact continues_throw _
    · next d _ => exact (continues_closure d _).bind fun f => ih _

theorem continues_declareClass (name : Token) (ss : List Stmt) : Continues (declareClass name ss) :=
  (continues_declare name .nil).bind fun _ => (continues_methods ss []).bind fun _ =>
    (continues_make fun m => continues_newClass m _).bind fun _ => continues_assign name _

/-! Trees -/

theorem continues_evaluate_execute (rounds : Nat) : ∀ depth,
    (∀ e, Continues (evaluate rounds depth e)) ∧ ∀ s, Continues (execute rounds depth s)
  | 0 => ⟨fun _ => continues_throw _, fun _ => continues_throw _⟩
  | depth + 1 => by
    obtain ⟨he, hs⟩ := continues_evaluate_execute rounds depth
    constructor
    · intro e
      cases e with
      | literal value => exact continues_pure _
      | grouping inner => exact he inner
      | unary operator right => exact (he right).bind fun v => (outright_unary operator v).continues
      | binary left operator right =>
        refine (he left).bind fun l => ?_
        split
        · exact continues_ite (continues_pure l) (he right)
        · exact continues_ite (he right) (continues_pure l)
        · exact (he right).bind fun r => (outright_binary operator l r).continues
      | «variable» name => exact continues_lookUp name
      | assign name value => exact (he value).bind fun v => (continues_assign name v).last
      | get object name =>
        refine (he object).bind fun v => ?_
        split
        · next o => exact continues_property o name
        · exact continues_fail name _
      | set object name value =>
        refine (he object).bind fun v => ?_
        split
        · next o =>
          exact (he value).bind fun v => (continues_modify fun m => continues_setField m o _ v).last
        · exact continues_fail name _
      | call callee paren arguments =>
        exact (he callee).bind fun f => (Continues.mapM he arguments).bind fun vs =>
          continues_checkedCall (continues_block hs) paren f vs
      | this keyword => exact continues_lookUp keyword
      | misplaced statement => exact continues_throw _
      | unknown kind => exact continues_throw _
    · intro s
      cases s with
      | expression inner => exact (he inner).last
      | print inner =>
        exact (he inner).bind fun v => (continues_modify fun m => continues_write m (m.display v)).last
      | var name initializer =>
        cases initializer with
        | none => exact (continues_pure _).bind fun v => (continues_declare name v).last
        | some e => exact (he e).bind fun v => (continues_declare name v).last
      | block statements =>
        exact (continues_make fun m => continues_newScope m m.current).bind fun scope =>
          continues_block hs scope statements
      | branch condition whenTrue whenFalse =>
        refine (he condition).bind fun v => continues_ite (hs whenTrue) ?_
        cases whenFalse with
        | none => exact continues_pure _
        | some s => exact hs s
      | «while» condition body => exact continues_loop (.map _ (he condition)) (hs body) rounds
      | function name params body =>
        exact (continues_closure _ _).bind fun f => (continues_declare name _).last
      | «return» keyword value =>
        cases value with
        | none => exact (continues_pure _).last
        | some e => exact (he e).last
      | «class» name methods => exact (continues_declareClass name methods).last
      | misplaced inner => exact continues_throw _
      | unknown kind => exact continues_throw _

theorem continues_interpret (limits : Limits) (ss : List Stmt) : Continues (interpret limits ss) := by
  induction ss with
  | nil => exact continues_pure _
  | cons s ss ih =>
    exact ((continues_evaluate_execute limits.rounds limits.depth).2 s).bind fun _ => ih

end Run
end Lox
