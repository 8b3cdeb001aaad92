import Lox.Proofs.Tree.Unlined
import Lox.Proofs.Carries
import Lox.Evaluation

/-! Running without lines. No decision of a run rests on the line of a token, so a tree without lines runs as the
tree does: it writes the same, it gives the same, and it ends over the same problem. -/

namespace Lox

def FunctionObject.unlined (f : FunctionObject) : FunctionObject := { f with declaration := f.declaration.unlined }

/-- A machine without the lines of its functions. It holds no others. -/
def Machine.unlined (m : Machine) : Machine := { m with functions := m.functions.map FunctionObject.unlined }

def RuntimeError.unlined (e : RuntimeError) : RuntimeError := { e with token := e.token.unlined }

def Stuck.unlined : Stuck → Stuck
  | unaryOperator operator => unaryOperator operator.unlined
  | binaryOperator operator => binaryOperator operator.unlined
  | s => s

def Interrupt.unlined : Interrupt → Interrupt
  | failed e => failed e.unlined
  | stuck s => stuck s.unlined
  | i => i

namespace Machine

theorem functions_unlined (m : Machine) (id : FunctionId) :
    m.unlined.functions[id]? = m.functions[id]?.map FunctionObject.unlined := Array.getElem?_map ..

@[simp] theorem scopes_unlined (m : Machine) : m.unlined.scopes = m.scopes := rfl

@[simp] theorem current_unlined (m : Machine) : m.unlined.current = m.current := rfl

@[simp] theorem classes_unlined (m : Machine) : m.unlined.classes = m.classes := rfl

@[simp] theorem instances_unlined (m : Machine) : m.unlined.instances = m.instances := rfl

@[simp] theorem natives_unlined (m : Machine) : m.unlined.natives = m.natives := rfl

theorem lineage_unlined (m : Machine) (id : ClassId) : m.unlined.lineage id = m.lineage id := by
  fun_induction m.lineage id with
  | case1 id ih =>
    rw [lineage, classes_unlined]
    split
    · rfl
    · split
      · next hc => rw [ih _ hc]
      · rfl

theorem findMethod?_unlined (m : Machine) (id : ClassId) (name : String) :
    m.unlined.findMethod? id name = m.findMethod? id name := by
  rw [findMethod?, lineage_unlined]
  rfl

theorem display_unlined (m : Machine) (v : Value) : m.unlined.display v = m.display v := by
  cases v with
  | function id =>
    simp only [display, functions_unlined, Option.map_map]
    rfl
  | _ => rfl

theorem arity?_unlined (m : Machine) (v : Value) : m.unlined.arity? v = m.arity? v := by
  cases v with
  | function id =>
    simp only [arity?, functions_unlined, Option.map_map]
    congr 1
    funext f
    simp [FunctionObject.unlined, Declaration.unlined]
  | «class» id =>
    simp only [arity?, findMethod?_unlined]
    cases m.findMethod? id "init" with
    | none => rfl
    | some f =>
      simp only [Option.bind_some, functions_unlined]
      cases m.functions[f]? with
      | none => rfl
      | some f => simp [FunctionObject.unlined, Declaration.unlined]
  | _ => rfl

end Machine

namespace Run

open Machine

variable {α β γ δ : Type} {g : α → β} {p : Run α} {q : Run β}

/-- Whether `q` gives without lines what `p` gives, which is translated by `g`. -/
abbrev Unlines (g : α → β) (p : Run α) (q : Run β) : Prop := Carries Interrupt.unlined Machine.unlined g p q

/-! Operations -/

theorem unlines_fail (token : Token) (problem : RuntimeProblem) :
    Unlines g (fail token problem) (fail token.unlined problem) := carries_throw rfl

theorem unlines_functionObject (id : FunctionId) :
    Unlines FunctionObject.unlined (functionObject id) (functionObject id) := by
  intro m
  unfold functionObject
  rw [functions_unlined]
  cases m.functions[id]? <;> rfl

theorem unlines_instanceObject (object : InstanceId) :
    Unlines id (instanceObject object) (instanceObject object) := by
  intro m
  simp only [instanceObject, instances_unlined]
  cases m.instances[object]? <;> rfl

/-- An operation that the functions take no part in. -/
theorem unlines_make {operation : Machine → α × Machine} {operation' : Machine → β × Machine}
    (h : ∀ m, operation' m.unlined = (g (operation m).1, (operation m).2.unlined)) :
    Unlines g (make operation) (make operation') := by
  intro m
  unfold make
  rw [h m]
  rfl

theorem unlines_newFunction (f : FunctionObject) :
    Unlines id (make (·.newFunction f)) (make (·.newFunction f.unlined)) :=
  unlines_make fun m => by simp [Machine.newFunction, Machine.unlined]

theorem unlines_lookUp (name : Token) : Unlines id (lookUp name) (lookUp name.unlined) := by
  intro m
  simp only [lookUp, scopes_unlined, current_unlined, Token.unlined_lexeme]
  cases m.scopes.get? m.current name.lexeme <;> rfl

theorem unlines_assign (name : Token) (v : Value) : Unlines id (assign name v) (assign name.unlined v) := by
  intro m
  simp only [assign, scopes_unlined, current_unlined, Token.unlined_lexeme]
  cases m.scopes.owner? m.current name.lexeme <;> rfl

theorem unlines_define (name : Token) (v : Value) : Unlines id (define name v) (define name.unlined v) :=
  carries_modify fun _ => rfl

theorem unlines_bind (f : FunctionObject) (receiver : Value) :
    Unlines FunctionObject.unlined (bind f receiver) (bind f.unlined receiver) := unlines_make fun _ => rfl

theorem unlines_property (object : InstanceId) (name : Token) :
    Unlines id (property object name) (property object name.unlined) := by
  refine (unlines_instanceObject object).bind fun o => ?_
  simp only [Token.unlined_lexeme, id]
  cases o.fields.get? name.lexeme with
  | some v => exact carries_pure rfl
  | none =>
    refine carries_get.bind fun m => ?_
    rw [findMethod?_unlined]
    cases m.findMethod? o.cls name.lexeme with
    | none => exact unlines_fail name _
    | some f =>
      exact (unlines_functionObject f).bind fun f => (unlines_bind f _).bind fun f =>
        (unlines_newFunction f).last fun _ => rfl

/-! Parts of a run -/

theorem unlines_inScope (scope : ScopeId) (h : Unlines g p q) :
    Unlines g (inScope scope p) (inScope scope q) := by
  intro m
  have hq : q { m.unlined with current := scope } = _ := h { m with current := scope }
  unfold inScope
  dsimp only
  rw [hq]
  cases p { m with current := scope } <;> rfl

theorem unlines_limiting (paren : Token) (h : Unlines g p q) :
    Unlines g (limiting paren p) (limiting paren.unlined q) := by
  intro m
  unfold limiting
  rw [h m]
  rcases p m with _ | ⟨_ | _ | _ | _, _⟩ <;> rfl

theorem unlines_sequence {execute execute' : Stmt → Run Completion}
    (h : ∀ s, Unlines id (execute s) (execute' s.unlined)) (ss : List Stmt) :
    Unlines id (sequence execute ss) (sequence execute' (ss.map Stmt.unlined)) := by
  induction ss with
  | nil => exact carries_pure rfl
  | cons s ss ih =>
    refine (h s).bind fun c => ?_
    cases c with
    | normal => exact ih
    | returned v => exact carries_pure rfl

/-- Whether bodies run without lines as they do with them. -/
def UnlinesBody (body body' : Body) : Prop :=
  ∀ scope ss, Unlines id (body scope ss) (body' scope (ss.map Stmt.unlined))

theorem unlines_block {execute execute' : Stmt → Run Completion}
    (h : ∀ s, Unlines id (execute s) (execute' s.unlined)) : UnlinesBody (block execute) (block execute') :=
  fun scope ss => unlines_inScope scope (unlines_sequence h ss)

theorem unlines_loop {condition condition' : Run Bool} {body body' : Run Completion}
    (hc : Unlines id condition condition') (hb : Unlines id body body') (rounds : Nat) :
    Unlines id (loop condition body rounds) (loop condition' body' rounds) := by
  induction rounds with
  | zero => exact carries_throw rfl
  | succ n ih =>
    refine hc.bind fun b => carries_ite (hb.bind fun c => ?_) (carries_pure rfl)
    cases c with
    | normal => exact ih
    | returned v => exact carries_pure rfl

/-! Calls -/

theorem foldl_define_unlined (scope : ScopeId) (ps : List (Token × Value)) (m : Machine) :
    (ps.map (Prod.map Token.unlined id)).foldl (fun m p => m.define scope p.1.lexeme p.2) m.unlined =
      (ps.foldl (fun m p => m.define scope p.1.lexeme p.2) m).unlined := by
  induction ps generalizing m with
  | nil => rfl
  | cons p ps ih => exact ih (m.define scope p.1.lexeme p.2)

theorem unlines_enter (f : FunctionObject) (arguments : List Value) :
    Unlines id (enter f arguments) (enter f.unlined arguments) := by
  refine unlines_make fun m => Prod.ext rfl ?_
  have hzip : (f.declaration.params.map Token.unlined).zip arguments =
      (f.declaration.params.zip arguments).map (Prod.map Token.unlined id) := by
    rw [← List.zip_map, List.map_id]
  show List.foldl _ _ ((f.declaration.params.map Token.unlined).zip arguments) = _
  rw [hzip]
  exact foldl_define_unlined (m.newScope f.closure).1 _ (m.newScope f.closure).2

theorem unlines_readAt (scope : ScopeId) (distance : Nat) (name : String) :
    Unlines id (readAt scope distance name) (readAt scope distance name) := by
  intro m
  simp only [readAt, scopes_unlined]
  cases m.scopes.getAt? scope distance name <;> rfl

theorem unlines_result (f : FunctionObject) (c : Completion) : Unlines id (result f c) (result f.unlined c) := by
  refine carries_ite (unlines_readAt f.closure 0 "this") ?_
  cases c <;> exact carries_pure rfl

theorem unlines_callFunction {body body' : Body} (h : UnlinesBody body body') (f : FunctionObject)
    (arguments : List Value) :
    Unlines id (callFunction body f arguments) (callFunction body' f.unlined arguments) :=
  (unlines_enter f arguments).bind fun scope => (h scope f.declaration.body).bind fun c => unlines_result f c

theorem unlines_construct {body body' : Body} (h : UnlinesBody body body') (cls : ClassId)
    (arguments : List Value) :
    Unlines id (construct body cls arguments) (construct body' cls arguments) := by
  have hnew : Unlines id (make (·.newInstance cls)) (make (·.newInstance cls)) := unlines_make fun _ => rfl
  refine hnew.bind fun object => carries_get.bind fun m => ?_
  rw [findMethod?_unlined]
  cases m.findMethod? cls "init" with
  | none => exact carries_pure rfl
  | some f =>
    exact (unlines_functionObject f).bind fun f => (unlines_bind f _).bind fun f =>
      (unlines_callFunction h f arguments).last fun _ => rfl

theorem unlines_callNative (native : NativeId) (arguments : List Value) :
    Unlines id (callNative native arguments) (callNative native arguments) := by
  intro m
  simp only [callNative, natives_unlined]
  rcases m.natives[native]?.map NativeObject.rule with _ | (_ | _ | _ | _) <;> rfl

theorem unlines_call {body body' : Body} (h : UnlinesBody body body') (callee : Value)
    (arguments : List Value) : Unlines id (call body callee arguments) (call body' callee arguments) := by
  cases callee with
  | function f => exact (unlines_functionObject f).bind fun f => unlines_callFunction h f arguments
  | «class» cls => exact unlines_construct h cls arguments
  | native n => exact unlines_callNative n arguments
  | _ => exact carries_throw rfl

theorem unlines_checkedCall {body body' : Body} (h : UnlinesBody body body') (paren : Token) (callee : Value)
    (arguments : List Value) :
    Unlines id (checkedCall body paren callee arguments) (checkedCall body' paren.unlined callee arguments) := by
  refine carries_get.bind fun m => ?_
  rw [arity?_unlined]
  cases m.arity? callee with
  | none => exact unlines_fail paren _
  | some expected =>
    exact carries_ite (unlines_limiting paren (unlines_call h callee arguments)) (unlines_fail paren _)

/-! Operators -/

theorem unlines_unary (operator : Token) (v : Value) :
    Unlines id (unary operator v) (unary operator.unlined v) := by
  unfold unary
  rw [Token.unlined_kind]
  split
  · exact carries_pure rfl
  · exact carries_pure rfl
  · exact unlines_fail operator _
  · exact carries_throw rfl

theorem unlines_quotient (x y : Float) : Unlines id (quotient x y) (quotient x y) :=
  carries_ite (carries_throw rfl) (carries_pure rfl)

theorem unlines_arithmetic (operator : Token) (x y : Float) :
    Unlines id (arithmetic operator x y) (arithmetic operator.unlined x y) := by
  unfold arithmetic
  rw [Token.unlined_kind]
  split
  case h_3 => exact carries_ite (unlines_fail operator _) ((unlines_quotient x y).map fun _ => rfl)
  case h_8 => exact carries_throw rfl
  all_goals exact carries_pure rfl

theorem unlines_binary (operator : Token) (l r : Value) :
    Unlines id (binary operator l r) (binary operator.unlined l r) := by
  unfold binary
  rw [Token.unlined_kind]
  split
  case h_5 => exact unlines_fail operator _
  case h_6 => exact unlines_arithmetic operator _ _
  case h_7 => exact unlines_fail operator _
  all_goals exact carries_pure rfl

/-! Declarations -/

theorem unlines_closure (d : Declaration) (isInitializer : Bool) :
    Unlines id (closure d isInitializer) (closure d.unlined isInitializer) :=
  unlines_make fun m => by
    simp [Machine.newFunction, Machine.unlined, FunctionObject.unlined]

theorem unlines_methods (ss : List Stmt) (table : Bindings FunctionId) :
    Unlines id (methods ss table) (methods (ss.map Stmt.unlined) table) := by
  induction ss generalizing table with
  | nil => exact carries_pure rfl
  | cons s ss ih =>
    simp only [List.map_cons, methods, Stmt.declaration?_unlined, Stmt.kind_unlined]
    cases s.declaration? with
    | none => exact carries_throw rfl
    | some d => exact (unlines_closure d _).bind fun f => ih _

theorem unlines_declareClass (name : Token) (ss : List Stmt) :
    Unlines id (declareClass name ss) (declareClass name.unlined (ss.map Stmt.unlined)) := by
  refine (unlines_define name .nil).bind fun _ => (unlines_methods ss []).bind fun table => ?_
  have hnew : Unlines id (make (·.newClass ⟨name.lexeme, none, table⟩))
      (make (·.newClass ⟨name.lexeme, none, table⟩)) := unlines_make fun _ => rfl
  exact hnew.bind fun cls => unlines_assign name _

/-! Trees -/

theorem unlines_evaluate_execute (rounds : Nat) : ∀ depth,
    (∀ e, Unlines id (evaluate rounds depth e) (evaluate rounds depth e.unlined)) ∧
      ∀ s, Unlines id (execute rounds depth s) (execute rounds depth s.unlined)
  | 0 => ⟨fun _ => carries_throw rfl, fun _ => carries_throw rfl⟩
  | depth + 1 => by
    obtain ⟨he, hs⟩ := unlines_evaluate_execute rounds depth
    constructor
    · intro e
      cases e with
      | literal value => exact carries_pure rfl
      | grouping inner => exact he inner
      | unary operator right => exact (he right).bind fun v => unlines_unary operator v
      | binary left operator right =>
        refine (he left).bind fun l => ?_
        simp only [Token.unlined_kind, id]
        split
        · exact carries_ite (carries_pure rfl) (he right)
        · exact carries_ite (he right) (carries_pure rfl)
        · exact (he right).bind fun r => unlines_binary operator l r
      | «variable» name => exact unlines_lookUp name
      | assign name value => exact (he value).bind fun v => (unlines_assign name v).last fun _ => rfl
      | get object name =>
        refine (he object).bind fun v => ?_
        cases v with
        | «instance» o => exact unlines_property o name
        | _ => exact unlines_fail name _
      | set object name value =>
        refine (he object).bind fun v => ?_
        cases v with
        | «instance» o =>
          refine (he value).bind fun v => Carries.bind (carries_modify fun _ => rfl) fun _ => ?_
          exact carries_pure rfl
        | _ => exact unlines_fail name _
      | call callee paren arguments =>
        rw [Expr.unlined_call]
        refine (he callee).bind fun f => ?_
        refine (Carries.mapM he arguments).bind fun vs => ?_
        rw [List.map_id]
        exact unlines_checkedCall (unlines_block hs) paren f vs
      | this keyword => exact unlines_lookUp keyword
      | misplaced s => exact carries_throw (by rw [Stmt.kind_unlined]; rfl)
      | unknown kind => exact carries_throw rfl
    · intro s
      cases s with
      | expression inner => exact (he inner).bind fun _ => carries_pure rfl
      | print inner =>
        refine (he inner).bind fun v => (carries_modify fun m => ?_).bind fun _ => carries_pure rfl
        rw [display_unlined]
        rfl
      | var name o =>
        have hdefine : ∀ v, Unlines id (define name v >>= fun _ => pure Completion.normal)
            (define name.unlined v >>= fun _ => pure Completion.normal) := fun v =>
          (unlines_define name v).bind fun _ => carries_pure rfl
        cases o with
        | none => exact hdefine .nil
        | some e => exact (he e).bind hdefine
      | block ss =>
        rw [Stmt.unlined_block]
        have hnew : Unlines id (make fun m => m.newScope m.current) (make fun m => m.newScope m.current) :=
          unlines_make fun _ => rfl
        exact hnew.bind fun scope => unlines_block hs scope ss
      | branch c t o =>
        rw [Stmt.unlined_branch]
        refine (he c).bind fun v => carries_ite (hs t) ?_
        cases o with
        | none => exact carries_pure rfl
        | some f => exact hs f
      | «while» c b => exact unlines_loop ((he c).map fun _ => rfl) (hs b) rounds
      | function name params body =>
        rw [Stmt.unlined_function]
        exact (unlines_closure ⟨name, params, body⟩ false).bind fun f => (unlines_define name _).bind
          fun _ => carries_pure rfl
      | «return» keyword o =>
        cases o with
        | none => exact carries_pure rfl
        | some e => exact (he e).bind fun _ => carries_pure rfl
      | «class» name ss =>
        rw [Stmt.unlined_class]
        exact (unlines_declareClass name ss).bind fun _ => carries_pure rfl
      | misplaced e => exact carries_throw (by rw [Expr.kind_unlined]; rfl)
      | unknown kind => exact carries_throw rfl

theorem unlines_interpret (limits : Limits) (ss : List Stmt) :
    Unlines id (interpret limits ss) (interpret limits (ss.map Stmt.unlined)) := by
  induction ss with
  | nil => exact carries_pure rfl
  | cons s ss ih => exact ((unlines_evaluate_execute limits.rounds limits.depth).2 s).bind fun _ => ih

end Run
end Lox
