import Lox.Proofs.Machine.Changes
import Lox.Proofs.Evaluation.Continues
import Lox.Proofs.Carries

/-! Runs as changes. Whatever code is run whose names are as `P` says, on a machine whose functions are such code, all
that it does to the machine is made of changes, and the names it binds are such names. The classes of the machine may
have superclasses, and its values need not refer to anything. -/

namespace Lox
namespace Run

open Machine

variable {α β : Type} {P : Token → Prop} {m : Machine} {p : Run α} {f : α → Run β} {Q : α → Machine → Prop}
  {R : β → Machine → Prop}

/-- Whether a run from a machine with such functions only makes changes, with a result as `Q` says. -/
def AltersAt (P : Token → Prop) (p : Run α) (m : Machine) (Q : α → Machine → Prop) : Prop :=
  m.Coded (Declaration.Formed P) →
    (∃ ws, Changes (Names P) (Declaration.Formed P) m ws (p.after m)) ∧ ∀ a m', p m = .ok a m' → Q a m'

/-- The same of the runs from all machines, of whose results nothing is said. -/
def Alters (P : Token → Prop) (p : Run α) : Prop := ∀ m, AltersAt P p m fun _ _ => True

theorem AltersAt.bind (hp : AltersAt P p m Q) (hf : ∀ a m', Q a m' → AltersAt P (f a) m' R) :
    AltersAt P (p >>= f) m R := by
  intro hm
  obtain ⟨⟨ws, hws⟩, hresult⟩ := hp hm
  rw [after_bind]
  unfold after at hws
  cases hr : p m with
  | error i m' =>
    rw [hr] at hws
    exact ⟨⟨ws, hws⟩, fun b m'' hok => nomatch (bind_of_error hr f).symm.trans hok⟩
  | ok a m' =>
    rw [hr] at hws
    obtain ⟨⟨us, hus⟩, hresult'⟩ := hf a m' (hresult a m' hr) (hws.coded hm)
    exact ⟨⟨us ++ ws, hws.trans hus⟩, fun b m'' hok => hresult' b m'' ((bind_of_ok hr f).symm.trans hok)⟩

theorem Alters.bind (hp : Alters P p) (hf : ∀ a, Alters P (f a)) : Alters P (p >>= f) :=
  fun m => (hp m).bind fun a m' _ => hf a m'

theorem alters_of_change {ws : List Write} (h : Change (Names P) (Declaration.Formed P) m ws (p.after m)) :
    AltersAt P p m fun _ _ => True := fun _ => ⟨⟨ws, h.single⟩, fun _ _ _ => trivial⟩

theorem alters_of_same (h : p.after m = m) (hresult : ∀ a m', p m = .ok a m' → Q a m') : AltersAt P p m Q :=
  fun _ => ⟨⟨[], h.symm ▸ .refl⟩, hresult⟩

theorem alters_pure (a : α) : Alters P (pure a) := fun _ => alters_of_same rfl fun _ _ _ => trivial

theorem alters_throw (i : Interrupt) : Alters P (throw i : Run α) := fun _ => alters_of_same rfl fun _ _ _ => trivial

theorem alters_fail (token : Token) (problem : RuntimeProblem) : Alters P (fail token problem : Run α) :=
  alters_throw _

/-- A run behind which only its result is put together. -/
theorem Alters.last {f : α → β} (hp : Alters P p) : Alters P (p >>= fun a => pure (f a)) :=
  hp.bind fun a => alters_pure (f a)

theorem Alters.map (f : α → β) (hp : Alters P p) : Alters P (f <$> p) := by
  rw [map_eq_pure_bind]
  exact hp.last

theorem alters_ite {c : Prop} [Decidable c] {q : Run α} (hp : Alters P p) (hq : Alters P q) :
    Alters P (if c then p else q) := by
  split
  · exact hp
  · exact hq

theorem alters_get : Alters P get := fun _ => alters_of_same rfl fun _ _ _ => trivial

theorem alters_mapM {f : α → Run β} (as : List α) (h : ∀ a ∈ as, Alters P (f a)) : Alters P (as.mapM f) := by
  induction as with
  | nil => exact alters_pure []
  | cons a as ih =>
    obtain ⟨ha, has⟩ := List.forall_mem_cons.1 h
    rw [List.mapM_cons]
    exact ha.bind fun _ => (ih has).last

/-! Operations -/

theorem alters_functionObject (id : FunctionId) (m : Machine) :
    AltersAt P (functionObject id) m fun f _ => f.declaration.Formed P := by
  intro hm
  unfold after functionObject
  cases hf : m.functions[id]? with
  | none => exact ⟨⟨[], .refl⟩, fun _ _ hok => nomatch hok⟩
  | some f =>
    refine ⟨⟨[], .refl⟩, fun _ _ hok => ?_⟩
    cases hok
    exact hm id f hf

theorem alters_instanceObject (id : InstanceId) : Alters P (instanceObject id) := by
  refine fun m => alters_of_same ?_ fun _ _ _ => trivial
  unfold after instanceObject
  cases m.instances[id]? <;> rfl

theorem alters_lookUp (name : Token) : Alters P (lookUp name) := by
  refine fun m => alters_of_same ?_ fun _ _ _ => trivial
  unfold after lookUp
  cases m.scopes.get? m.current name.lexeme <;> rfl

theorem alters_readAt (scope : ScopeId) (distance : Nat) (name : String) : Alters P (readAt scope distance name) := by
  refine fun m => alters_of_same ?_ fun _ _ _ => trivial
  unfold after readAt
  cases m.scopes.getAt? scope distance name <;> rfl

theorem alters_assign {name : Token} (hname : name.IsName P) (v : Value) : Alters P (assign name v) := by
  intro m
  cases howner : m.scopes.owner? m.current name.lexeme with
  | none =>
    refine alters_of_same ?_ fun _ _ _ => trivial
    unfold after assign
    rw [howner]
  | some scope =>
    have hchange := Change.define (N := Names P) (D := Declaration.Formed P) (m := m) scope v ⟨name, hname, rfl⟩
    have hafter : (assign name v).after m = m.define scope name.lexeme v := by
      unfold after assign
      rw [howner]
    exact alters_of_change (hafter ▸ hchange)

theorem alters_declare {name : Token} (hname : name.IsName P) (v : Value) : Alters P (define name v) :=
  fun m => alters_of_change (.define m.current v ⟨name, hname, rfl⟩)

theorem alters_setField (o : InstanceId) (name : String) (v : Value) :
    Alters P (modify fun m : Machine => m.setField o name v) := by
  intro m
  by_cases ho : o < m.instances.size
  · exact alters_of_change (.setField name v ho)
  · refine alters_of_same ?_ fun _ _ _ => trivial
    show { m with instances := m.instances.modify o _ } = m
    have hsame (change : InstanceObject → InstanceObject) : m.instances.modify o change = m.instances := by
      refine Array.ext_getElem? fun i => ?_
      rw [Array.getElem?_modify]
      split
      · next heq =>
        subst heq
        rw [Array.getElem?_eq_none (Nat.le_of_not_lt ho)]
        rfl
      · rfl
    rw [hsame]

theorem alters_bindTo {f : FunctionObject} (hf : f.declaration.Formed P) (receiver : Value) (m : Machine) :
    AltersAt P (Run.bind f receiver) m fun g _ => g.declaration.Formed P := by
  refine fun _ => ⟨⟨[], (Change.bind f receiver).single⟩, fun g m' hok => ?_⟩
  cases hok
  exact hf

theorem alters_newFunction {f : FunctionObject} (hf : f.declaration.Formed P) :
    Alters P (make (·.newFunction f)) := fun _ => alters_of_change (.newFunction hf)

theorem alters_property (o : InstanceId) (name : Token) : Alters P (property o name) := by
  refine (alters_instanceObject o).bind fun i => ?_
  split
  · exact alters_pure _
  · refine alters_get.bind fun m => ?_
    split
    · exact alters_fail name _
    · next id _ =>
      exact fun m => (alters_functionObject id m).bind fun f m hf => (alters_bindTo hf _ m).bind fun g m hg =>
        (alters_newFunction hg).last m

theorem Outright.alters {p : Run Value} (h : Outright p) : Alters P p := by
  cases h with
  | gives => exact alters_pure _
  | fails token problem => exact alters_fail token problem
  | stuck => exact alters_throw _

/-! Statements and calls -/

/-- Going to another scope and coming back are changes too. -/
theorem Alters.inScope (scope : ScopeId) (hp : Alters P p) : Alters P (inScope scope p) := by
  intro m hm
  obtain ⟨⟨ws, hws⟩, -⟩ := hp { m with current := scope } hm
  rw [after_inScope]
  refine ⟨⟨[] ++ (ws ++ []), ?_⟩, fun _ _ _ => trivial⟩
  exact ((Change.move scope).single.trans hws).tail (.move m.current)

theorem Alters.limiting (paren : Token) (hp : Alters P p) : Alters P (limiting paren p) := by
  intro m hm
  rw [after_limiting]
  exact ⟨(hp m hm).1, fun _ _ _ => trivial⟩

theorem alters_sequence {execute : Stmt → Run Completion} (ss : List Stmt) (h : ∀ s ∈ ss, Alters P (execute s)) :
    Alters P (sequence execute ss) := by
  induction ss with
  | nil => exact alters_pure _
  | cons s ss ih =>
    obtain ⟨hs, hss⟩ := List.forall_mem_cons.1 h
    refine hs.bind fun c => ?_
    cases c with
    | normal => exact ih hss
    | returned v => exact alters_pure _

theorem alters_loop {condition : Run Bool} {body : Run Completion} (hc : Alters P condition)
    (hb : Alters P body) (rounds : Nat) : Alters P (loop condition body rounds) := by
  induction rounds with
  | zero => exact alters_throw _
  | succ rounds ih =>
    refine hc.bind fun b => alters_ite (hb.bind fun c => ?_) (alters_pure _)
    cases c with
    | normal => exact ih
    | returned v => exact alters_pure _

theorem changes_foldl_define (scope : ScopeId) (ps : List (Token × Value)) (hps : ∀ p ∈ ps, p.1.IsName P) :
    ∀ m : Machine, Changes (Names P) (Declaration.Formed P) m []
      (ps.foldl (fun m p => m.define scope p.1.lexeme p.2) m) := by
  induction ps with
  | nil => exact fun _ => .refl
  | cons p ps ih =>
    obtain ⟨hp, hps⟩ := List.forall_mem_cons.1 hps
    exact fun m => (Change.define scope p.2 ⟨p.1, hp, rfl⟩).single.trans (ih hps _)

theorem alters_enter {f : FunctionObject} (hf : f.declaration.Formed P) (arguments : List Value) :
    Alters P (enter f arguments) := by
  refine fun m _ => ⟨⟨[], ?_⟩, fun _ _ _ => trivial⟩
  have hparams : ∀ p ∈ f.declaration.params.zip arguments, p.1.IsName P :=
    fun p hp => hf.params _ (List.of_mem_zip hp).1
  exact (Change.newScope f.closure).single.trans (changes_foldl_define m.scopes.size _ hparams _)

theorem alters_result (f : FunctionObject) (c : Completion) : Alters P (result f c) := by
  refine alters_ite (alters_readAt f.closure 0 "this") ?_
  cases c <;> exact alters_pure _

section Calls

variable {body : Body} (h : ∀ scope ss, (∀ s ∈ ss, s.Formed P) → Alters P (body scope ss))

include h

theorem alters_callFunction {f : FunctionObject} (hf : f.declaration.Formed P) (arguments : List Value) :
    Alters P (callFunction body f arguments) :=
  (alters_enter hf arguments).bind fun scope => (h scope f.declaration.body hf.body).bind fun c => alters_result f c

theorem alters_construct (cls : ClassId) (arguments : List Value) : Alters P (construct body cls arguments) := by
  have hnew : Alters P (make (·.newInstance cls)) := fun _ => alters_of_change (.newInstance cls)
  refine hnew.bind fun object => alters_get.bind fun m => ?_
  split
  · exact alters_pure _
  · next id _ =>
    exact fun m => (alters_functionObject id m).bind fun f m hf => (alters_bindTo hf _ m).bind fun g m hg =>
      (alters_callFunction h hg arguments).last m

theorem alters_call (callee : Value) (arguments : List Value) : Alters P (call body callee arguments) := by
  unfold call
  split
  · next id =>
    exact fun m => (alters_functionObject id m).bind fun f m hf => alters_callFunction h hf arguments m
  · next cls => exact alters_construct h cls arguments
  · next native =>
    refine fun m hm => ⟨?_, fun _ _ _ => trivial⟩
    unfold after callNative
    rcases m.natives[native]?.map NativeObject.rule with _ | (_ | _ | _ | _)
    case some.clock => exact ⟨[], Change.tick.single⟩
    all_goals exact ⟨[], .refl⟩
  · exact alters_throw _

theorem alters_checkedCall (paren : Token) (callee : Value) (arguments : List Value) :
    Alters P (checkedCall body paren callee arguments) := by
  refine alters_get.bind fun m => ?_
  split
  · exact alters_fail paren _
  · exact alters_ite ((alters_call h callee arguments).limiting paren) (alters_fail paren _)

end Calls

/-! Declarations -/

theorem alters_closure {d : Declaration} (hd : d.Formed P) (isInitializer : Bool) : Alters P (closure d isInitializer) :=
  fun _ => alters_of_change (.newFunction hd)

/-- Whether all methods in a table exist. -/
def Present (table : Bindings FunctionId) (m : Machine) : Prop :=
  ∀ n id, table.get? n = some id → id < m.functions.size

theorem alters_methods (ss : List Stmt) (hss : ∀ s ∈ ss, s.Formed P)
    (hfunctions : ∀ s ∈ ss, ∃ d : Declaration, s = d.statement) (table : Bindings FunctionId) (m : Machine)
    (htable : Present table m) :
    AltersAt P (methods ss table) m Present := by
  induction ss generalizing table m with
  | nil =>
    refine alters_of_same rfl fun table' m' hok => ?_
    cases hok
    exact htable
  | cons s ss ih =>
    obtain ⟨hs, hrest⟩ := List.forall_mem_cons.1 hss
    obtain ⟨⟨d, rfl⟩, hlater⟩ := List.forall_mem_cons.1 hfunctions
    have hd : d.Formed P := Declaration.formed_statement.1 hs
    have hclosure : AltersAt P (closure d (d.name.lexeme = "init")) m fun id m' =>
        Present (table.set d.name.lexeme id) m' := by
      refine fun hm => ⟨(alters_closure hd _ m hm).1, fun id m' hok n f hn => ?_⟩
      cases hok
      show f < (m.functions.push _).size
      rw [Array.size_push]
      rw [Bindings.get?_set] at hn
      split at hn
      · cases hn
        exact Nat.lt_succ_self _
      · exact Nat.lt_succ_of_lt (htable n f hn)
    exact hclosure.bind fun id m' hset => ih hrest hlater _ m' hset

theorem alters_declareClass {name : Token} (hname : name.IsName P) {ss : List Stmt} (hss : ∀ s ∈ ss, s.Formed P)
    (hfunctions : ∀ s ∈ ss, ∃ d : Declaration, s = d.statement) : Alters P (declareClass name ss) := by
  intro m
  refine (alters_declare hname .nil m).bind fun _ m _ => ?_
  refine (alters_methods ss hss hfunctions [] m nofun).bind fun table m htable => ?_
  have hnew : AltersAt P (make (·.newClass ⟨name.lexeme, none, table⟩)) m fun _ _ => True :=
    alters_of_change (.newClass nofun htable)
  exact hnew.bind fun cls m _ => alters_assign hname _ m

/-! Trees -/

theorem alters_evaluate_execute (P : Token → Prop) (rounds : Nat) : ∀ depth,
    (∀ e : Expr, e.Formed P → Alters P (evaluate rounds depth e)) ∧
      ∀ s : Stmt, s.Formed P → Alters P (execute rounds depth s)
  | 0 => ⟨fun _ _ => alters_throw _, fun _ _ => alters_throw _⟩
  | depth + 1 => by
    obtain ⟨he, hs⟩ := alters_evaluate_execute P rounds depth
    have hblock (scope : ScopeId) (ss : List Stmt) (hss : ∀ s ∈ ss, s.Formed P) :
        Alters P (block (execute rounds depth) scope ss) :=
      (alters_sequence ss fun s hmem => hs s (hss s hmem)).inScope scope
    constructor
    · intro e hformed
      cases hformed with
      | literal value => exact alters_pure _
      | grouping hinner => exact he _ hinner
      | unary _ hright => exact (he _ hright).bind fun v => (outright_unary _ v).alters
      | binary _ hleft hright =>
        refine (he _ hleft).bind fun l => ?_
        split
        · exact alters_ite (alters_pure l) (he _ hright)
        · exact alters_ite (he _ hright) (alters_pure l)
        · exact (he _ hright).bind fun r => (outright_binary _ l r).alters
      | «variable» => exact alters_lookUp _
      | assign hname hvalue => exact (he _ hvalue).bind fun v => (alters_assign hname v).last
      | get _ hobject =>
        refine (he _ hobject).bind fun v => ?_
        split
        · exact alters_property _ _
        · exact alters_fail _ _
      | set _ hobject hvalue =>
        refine (he _ hobject).bind fun v => ?_
        split
        · exact (he _ hvalue).bind fun v => (alters_setField _ _ v).last
        · exact alters_fail _ _
      | call paren hcallee harguments =>
        exact (he _ hcallee).bind fun f => (alters_mapM _ fun e hmem => he e (harguments e hmem)).bind fun vs =>
          alters_checkedCall hblock paren f vs
      | this => exact alters_lookUp _
    · intro s hformed
      cases hformed with
      | expression hinner => exact (he _ hinner).last
      | print hinner =>
        refine (he _ hinner).bind fun v => ?_
        have hwrite : Alters P (modify fun m : Machine => m.write (m.display v)) :=
          fun m => alters_of_change (.output (m.write (m.display v)).output)
        exact hwrite.last
      | @var name initializer hname hinitializer =>
        cases initializer with
        | none => exact (alters_pure _).bind fun v => (alters_declare hname v).last
        | some e => exact (he e (hinitializer e rfl)).bind fun v => (alters_declare hname v).last
      | block hstatements =>
        have hnew : Alters P (make fun m => m.newScope m.current) := fun m => alters_of_change (.newScope m.current)
        exact hnew.bind fun scope => hblock scope _ hstatements
      | @branch condition whenTrue whenFalse hcondition htrue _ hfalse _ =>
        refine (he _ hcondition).bind fun v => alters_ite (hs _ htrue) ?_
        cases whenFalse with
        | none => exact alters_pure _
        | some s => exact hs s (hfalse s rfl)
      | «while» hcondition hbody _ => exact alters_loop (.map _ (he _ hcondition)) (hs _ hbody) rounds
      | function hname hparams hbody =>
        exact (alters_closure ⟨hname, hparams, hbody⟩ _).bind fun f => (alters_declare hname _).last
      | @«return» value keyword hvalue =>
        cases value with
        | none => exact (alters_pure _).last
        | some e => exact (he e (hvalue e rfl)).last
      | «class» hname hmethods hfunctions => exact (alters_declareClass hname hmethods hfunctions).last

end Run
end Lox
