import Lox.Proofs.Evaluation.Following

/-! Evaluation by lexical scoping follows evaluation by search, on programs whose names stand in order. The calls
are taken first, for any ways of executing statements one of which follows the other, and then the evaluators by
the nesting they may use. -/

namespace Lox
namespace Lexical

open Machine

variable {α : Type} {P : Token → Prop} {D : Declarations} {Φ : Frames} {s : State}

/-! Calls -/

/-- The value that a completion hands on, if it does, is placed. -/
def Hands (P : Token → Prop) (D : Declarations) (s : State) (c : Completion) : Prop :=
  ∀ v, c = .returned v → Placed P D s v

theorem hands_normal : Hands P D s .normal := nofun

theorem hands_returned {v : Value} (h : Placed P D s v) : Hands P D s (.returned v) := by
  rintro w heq
  cases heq
  exact h

/-- What a statement leaves that declares `names`: they are settled if it ends normally. -/
structure Leaves (P : Token → Prop) (Φ : Frames) (names : List String) (c : Completion)
    (D : Declarations) (s : State) : Prop where
  hands : Hands P D s c
  settles : c = .normal → Stands D s.machine.scopes (Φ.settle names) s.machine.current

/-- What a statement leaves that declares nothing. -/
theorem Hands.leaves {c : Completion} (h : Hands P D s c) (hst : Stands D s.machine.scopes Φ s.machine.current) :
    Leaves P Φ [] c D s := ⟨h, fun _ => hst.settle (List.forall_mem_nil _)⟩

/-- Whether one way of executing statements follows another, for those that parsers build and that are in order. -/
def ExecutesAlike (P : Token → Prop) (execute' : Context → Stmt → Lexical Completion)
    (execute : Stmt → Run Completion) : Prop :=
  ∀ t : Stmt, t.Formed P → ∀ Φ : Frames, t.orderly Φ → (∀ F ∈ Φ.head?, ∀ n ∈ t.declares, n ∈ F.declared) →
    ∀ D s, Faithful P D s → Stands D s.machine.scopes Φ s.machine.current →
      Follows P (execute' Φ.context t) (execute t) D s (Leaves P Φ t.declares)

section Calls

variable {execute : Stmt → Run Completion} {execute' : Context → Stmt → Lexical Completion} {arguments : List Value}

theorem follows_sequence (hex : ExecutesAlike P execute' execute) (ts : List Stmt) : (∀ t ∈ ts, t.Formed P) →
    ∀ Φ : Frames, Stmt.orderlyAll Φ ts → (∀ F ∈ Φ.head?, ∀ n ∈ ts.flatMap Stmt.declares, n ∈ F.declared) →
      ∀ D s, Faithful P D s → Stands D s.machine.scopes Φ s.machine.current →
        Follows P (sequence (execute' Φ.context) ts) (Run.sequence execute ts) D s fun c D' s' => Hands P D' s' c := by
  induction ts with
  | nil => exact fun _ _ _ _ D s hs _ => follows_pure hs hands_normal
  | cons t ts ih =>
    intro hts Φ horderly hdeclared D s hs hst
    obtain ⟨ht, hts⟩ := List.forall_mem_cons.1 hts
    rw [Stmt.orderlyAll, Bool.and_eq_true] at horderly
    have hfirst : ∀ F ∈ Φ.head?, ∀ n ∈ t.declares, n ∈ F.declared := fun F hF n hn =>
      hdeclared F hF n (List.mem_append_left _ hn)
    have hrest : ∀ F ∈ (Φ.settle t.declares).head?, ∀ n ∈ ts.flatMap Stmt.declares, n ∈ F.declared := by
      cases Φ with
      | nil => exact nofun
      | cons F Φ =>
        rintro _ ⟨⟩ n hn
        exact hdeclared F rfl n (List.mem_append_right _ hn)
    refine (hex t ht Φ horderly.1 hfirst D s hs hst).bind fun c D₁ s₁ hl hc => ?_
    cases c with
    | normal =>
      have hnext := ih hts (Φ.settle t.declares) horderly.2 hrest D₁ s₁ hl.faithful (hc.settles rfl)
      rwa [Frames.context_settle] at hnext
    | returned v => exact follows_pure hl.faithful hc.hands

/-- What is run in another scope comes back to the one around. -/
theorem follows_inScope {q : Lexical Completion} {p : Run Completion} (scope : ScopeId)
    (h : Follows P q p D { s with machine := { s.machine with current := scope } } fun c D' s' => Hands P D' s' c) :
    Follows P (inScope scope q) (Run.inScope scope p) D s fun c D' s' => Hands P D' s' c := by
  unfold Follows at h ⊢
  unfold inScope Run.inScope
  dsimp only at h ⊢
  generalize q { s with machine := { s.machine with current := scope } } = x,
    p { s.machine with current := scope } = y at h
  cases h with
  | error => exact .error
  | @ok c D' s' hl hc =>
    obtain ⟨hback, hfaithful⟩ := hl.faithful.move s.machine.current
    have hlater : Later P D s D' { s' with machine := { s'.machine with current := s.machine.current } } :=
      { grows := { hl.grows with }
        declared := hl.declared
        contexts := hl.contexts
        current := rfl
        faithful := hfaithful }
    exact .ok hlater fun v hv => (hc v hv).mono hback

/-- Statements in a scope that is entered for them, in order where their body begins. -/
theorem follows_entered (hex : ExecutesAlike P execute' execute) (hs : Faithful P D s) {parent : ScopeId}
    (hparent : Stands D s.machine.scopes Φ parent) {params : List Token}
    (hlength : params.length = arguments.length) (hargs : ∀ v ∈ arguments, Placed P D s v) {ts : List Stmt}
    (hts : ∀ t ∈ ts, t.Formed P) (horderly : Stmt.orderlyAll (.ofBody params ts :: Φ) ts) :
    Follows P (lift (Run.make (·.enter parent params arguments)) >>= fun scope =>
        block execute' ((Frame.ofBody params ts).declared :: Φ.context) scope ts)
      (Run.make (·.enter parent params arguments) >>= fun scope => Run.block execute scope ts) D s
      fun c D' s' => Hands P D' s' c := by
  obtain ⟨hl, hstands⟩ := hs.later_enter hparent hlength hargs ts
  have henter : Follows P (lift (Run.make (·.enter parent params arguments)))
      (Run.make (·.enter parent params arguments)) D s fun scope D' s' =>
        Stands D' s'.machine.scopes (.ofBody params ts :: Φ) scope := follows_make hl hstands
  refine henter.bind fun scope D₁ s₁ hl₁ hst₁ => follows_inScope scope ?_
  obtain ⟨hmove, hfaithful⟩ := hl₁.faithful.move scope
  refine follows_sequence hex ts hts (.ofBody params ts :: Φ) horderly ?_ D₁ _ hfaithful (hst₁.mono hmove)
  rintro _ ⟨⟩ n hn
  exact List.mem_append_right _ hn

theorem follows_result (hs : Faithful P D s) (f : FunctionObject) {c : Completion} (hc : Hands P D s c) :
    Follows P (lift (Run.result f c)) (Run.result f c) D s fun v D' s' => Placed P D' s' v := by
  unfold Run.result
  split
  · refine follows_lift fun v m hr => ?_
    rw [Run.readAt_zero] at hr
    cases hr
    refine ⟨D, hs.later, ?_⟩
    cases hv : (s.machine.scopes.bindings f.closure).get? "this" with
    | none => exact placed_of_ne nofun
    | some v => exact hs.bindings _ _ v hv
  · cases c with
    | normal => exact follows_pure hs (placed_of_ne nofun)
    | returned v => exact follows_pure hs (hc v rfl)

theorem follows_callFunction (hex : ExecutesAlike P execute' execute) (hs : Faithful P D s) {f : FunctionObject}
    (hf : f.declaration.Formed P)
    (horderly : Stmt.orderlyAll (.ofBody f.declaration.params f.declaration.body :: Φ) f.declaration.body)
    (hclosure : Stands D s.machine.scopes Φ f.closure) (hlength : f.declaration.params.length = arguments.length)
    (hargs : ∀ v ∈ arguments, Placed P D s v) :
    Follows P (callFunction (block execute') Φ.context f arguments)
      (Run.callFunction (Run.block execute) f arguments) D s fun v D' s' => Placed P D' s' v := by
  have hbody := follows_entered hex hs hclosure hlength hargs hf.body horderly
  have hresult := hbody.bind fun c D₁ s₁ hl hc => follows_result hl.faithful f hc
  rwa [bind_assoc, bind_assoc] at hresult

/-- A class that can be called with these arguments makes an instance as it does by search. -/
theorem follows_construct (hex : ExecutesAlike P execute' execute) (hs : Faithful P D s) {cls : ClassId}
    (harity : s.machine.arity? (.class cls) = some (arguments.length : Int))
    (hargs : ∀ v ∈ arguments, Placed P D s v) :
    Follows P (construct (block execute') cls arguments) (Run.construct (Run.block execute) cls arguments) D s
      fun v D' s' => Placed P D' s' v := by
  have hmake : Follows P (lift (Run.make (·.newInstance cls))) (Run.make (·.newInstance cls)) D s
      fun _ D' s' => D' = D ∧ s' = { s with machine := (s.machine.newInstance cls).2 } :=
    follows_make (hs.later_newInstance cls) ⟨rfl, rfl⟩
  refine hmake.bind fun object D₁ s₁ hl₁ heq => follows_get ?_
  obtain ⟨rfl, rfl⟩ := heq
  cases hmethod : (s.machine.newInstance cls).2.findMethod? cls "init" with
  | none => exact follows_pure hl₁.faithful (placed_of_ne nofun)
  | some id =>
    obtain ⟨Φ, h, hw, hclosure⟩ := method_of_findMethod? hl₁.faithful hmethod
    have hlength : h.declaration.params.length = arguments.length := by
      rw [findMethod?_congr (show (s.machine.newInstance cls).2.classes = s.machine.classes from rfl)] at hmethod
      have hfunction : s.machine.functions[id]? = some h := hw.function
      exact Int.ofNat_inj.1 (by simpa [arity?, hmethod, hfunction] using harity)
    refine (follows_functionObject hl₁.faithful hw).bind fun h' D₂ s₂ hl₂ heq => ?_
    obtain ⟨rfl, rfl, rfl⟩ := heq
    refine (follows_bind hl₂.faithful hclosure object).bind fun b D₃ s₃ hl₃ hb => ?_
    obtain ⟨hdeclaration, hstands⟩ := hb
    refine follows_context (hw.mono hl₃.toExtends) ?_
    have hcall := follows_callFunction (f := b) (Φ := .this :: Φ) hex hl₃.faithful (hdeclaration ▸ hw.formed)
      (hdeclaration ▸ hw.orderly) hstands (hdeclaration ▸ hlength)
      fun v hv => (hargs v hv).mono (hl₁.trans (hl₂.trans hl₃)).toExtends
    exact hcall.andThen fun _ _ _ _ _ => placed_of_ne nofun

theorem follows_callNative (hs : Faithful P D s) (id : NativeId) (hargs : ∀ v ∈ arguments, Placed P D s v) :
    Follows P (lift (Run.callNative id arguments)) (Run.callNative id arguments) D s
      fun v D' s' => Placed P D' s' v := by
  refine follows_lift fun v m hr => ?_
  unfold Run.callNative at hr
  split at hr
  · cases hr
  · cases hr
    exact ⟨D, hs.later_tick, placed_of_ne nofun⟩
  · cases hr
    exact ⟨D, hs.later, placed_of_ne nofun⟩
  · cases hr
    refine ⟨D, hs.later, ?_⟩
    cases hv : arguments.head? with
    | none => exact placed_of_ne nofun
    | some v => exact hargs v (List.mem_of_head? hv)
  · cases hr
    refine ⟨D, hs.later, ?_⟩
    cases hv : arguments.getLast? with
    | none => exact placed_of_ne nofun
    | some v => exact hargs v (List.mem_of_getLast? hv)

theorem follows_call (hex : ExecutesAlike P execute' execute) (hs : Faithful P D s) {callee : Value}
    (hc : Placed P D s callee) (harity : s.machine.arity? callee = some (arguments.length : Int))
    (hargs : ∀ v ∈ arguments, Placed P D s v) :
    Follows P (call (block execute') callee arguments) (Run.call (Run.block execute) callee arguments) D s
      fun v D' s' => Placed P D' s' v := by
  cases callee with
  | function id =>
    obtain ⟨Φ, f, hw, hclosure⟩ := hc id rfl
    have hlength : f.declaration.params.length = arguments.length := by
      exact Int.ofNat_inj.1 (by simpa [arity?, hw.function] using harity)
    refine (follows_functionObject hs hw).bind fun f' D₁ s₁ hl heq => ?_
    obtain ⟨rfl, rfl, rfl⟩ := heq
    exact follows_context hw (follows_callFunction hex hs hw.formed hw.orderly hclosure hlength hargs)
  | «class» id => exact follows_construct hex hs harity hargs
  | native id => exact follows_callNative hs id hargs
  | nil | bool | number | string | «instance» => exact follows_throw _

theorem follows_limiting {q : Lexical α} {p : Run α} (paren : Token) (h : Follows P q p D s Q) :
    Follows P (limiting paren q) (Run.limiting paren p) D s Q := by
  unfold Follows at h ⊢
  unfold limiting Run.limiting
  generalize q s = x, p s.machine = y at h
  cases h with
  | ok hl hq => exact .ok hl hq
  | @error i s' => cases i <;> exact .error

theorem follows_checkedCall (hex : ExecutesAlike P execute' execute) (hs : Faithful P D s) (paren : Token)
    {callee : Value} (hc : Placed P D s callee) (hargs : ∀ v ∈ arguments, Placed P D s v) :
    Follows P (checkedCall (block execute') paren callee arguments)
      (Run.checkedCall (Run.block execute) paren callee arguments) D s fun v D' s' => Placed P D' s' v := by
  refine follows_get ?_
  cases harity : s.machine.arity? callee with
  | none => exact follows_fail paren _
  | some expected =>
    dsimp only
    split
    · next hexpected =>
      rw [hexpected] at harity
      exact follows_limiting paren (follows_call hex hs hc harity hargs)
    · exact follows_fail paren _

end Calls

/-! Loops and declarations of classes -/

theorem follows_loop {condition' : Lexical Bool} {condition : Run Bool} {body' : Lexical Completion}
    {body : Run Completion}
    (hcondition : ∀ D s, Faithful P D s → Stands D s.machine.scopes Φ s.machine.current →
      Follows P condition' condition D s fun _ _ _ => True)
    (hbody : ∀ D s, Faithful P D s → Stands D s.machine.scopes Φ s.machine.current →
      Follows P body' body D s fun c D' s' => Hands P D' s' c) (rounds : Nat) :
    ∀ D s, Faithful P D s → Stands D s.machine.scopes Φ s.machine.current →
      Follows P (loop condition' body' rounds) (Run.loop condition body rounds) D s
        fun c D' s' => Hands P D' s' c := by
  induction rounds with
  | zero => exact fun D s _ _ => follows_throw _
  | succ rounds ih =>
    intro D s hs hst
    refine (hcondition D s hs hst).bind fun b D₁ s₁ hl₁ _ => ?_
    split
    · refine (hbody D₁ s₁ hl₁.faithful (hst.later hl₁)).bind fun c D₂ s₂ hl₂ hc => ?_
      cases c with
      | normal => exact ih D₂ s₂ hl₂.faithful (hst.later (hl₁.trans hl₂))
      | returned v => exact follows_pure hl₂.faithful hc
    · exact follows_pure hl₁.faithful hands_normal

/-- The methods of a class are written inside the scope of `this`, which they get when they are bound. -/
theorem follows_methods (ts : List Stmt) : (∀ t ∈ ts, t.Formed P) → (∀ t ∈ ts, ∃ d : Declaration, t = d.statement) →
    Stmt.orderlyMethods (.this :: Φ) ts → ∀ (table : Bindings FunctionId) D s, Faithful P D s →
      Stands D s.machine.scopes Φ s.machine.current → (∀ n id, table.get? n = some id → Method P D s id) →
        Follows P (methods (Frame.this.declared :: Φ.context) ts table) (Run.methods ts table) D s
          fun table' D' s' => ∀ n id, table'.get? n = some id → Method P D' s' id := by
  induction ts with
  | nil => exact fun _ _ _ table D s hs _ htable => follows_pure hs htable
  | cons t ts ih =>
    intro hts hds horderly table D s hs hst htable
    obtain ⟨ht, hts'⟩ := List.forall_mem_cons.1 hts
    obtain ⟨⟨d, rfl⟩, hds'⟩ := List.forall_mem_cons.1 hds
    rw [Declaration.statement, Stmt.orderlyMethods, Bool.and_eq_true] at horderly
    have hmake := follows_newFunction (Φ := .this :: Φ) hs
      (fun m => ⟨d, m.current, decide (d.name.lexeme = "init")⟩) (Declaration.formed_statement.1 ht) horderly.1
    refine hmake.bind fun id D₁ s₁ hl hw => ih hts' hds' horderly.2 _ D₁ s₁ hl.faithful (hst.later hl) ?_
    intro n id' hid
    rw [Bindings.get?_set] at hid
    split at hid
    · cases hid
      exact ⟨Φ, _, hw, hst.mono hl.toExtends⟩
    · exact (htable n id' hid).mono hl.toExtends

theorem follows_declareClass (hs : Faithful P D s) (hst : Stands D s.machine.scopes Φ s.machine.current)
    {name : Token} (hname : ∀ F ∈ Φ.head?, name.lexeme ∈ F.declared) {ts : List Stmt} (hts : ∀ t ∈ ts, t.Formed P)
    (hds : ∀ t ∈ ts, ∃ d : Declaration, t = d.statement)
    (horderly : Stmt.orderlyMethods (.this :: Φ.settle [name.lexeme]) ts) :
    Follows P (declareClass Φ.context name ts) (Run.declareClass name ts) D s fun _ D' s' =>
      Stands D' s'.machine.scopes (Φ.settle [name.lexeme]) s'.machine.current := by
  refine (follows_define (v := .nil) hs hst hname fun _ => placed_of_ne nofun).bind fun _ D₁ s₁ hl₁ hst₁ => ?_
  have hmethods := follows_methods ts hts hds horderly [] D₁ s₁ hl₁.faithful hst₁ nofun
  rw [Frames.context_settle] at hmethods
  refine hmethods.bind fun table D₂ s₂ hl₂ htable => ?_
  have hclass : Follows P (lift (Run.make (·.newClass ⟨name.lexeme, none, table⟩)))
      (Run.make (·.newClass ⟨name.lexeme, none, table⟩)) D₂ s₂ fun _ _ _ => True :=
    follows_make (hl₂.faithful.later_newClass _ htable) trivial
  refine hclass.bind fun cls D₃ s₃ hl₃ _ => ?_
  refine (follows_assignment hl₃.faithful name (placed_of_ne (v := .class cls) nofun)).mono fun _ D₄ s₄ hl₄ _ => ?_
  exact hst₁.later (hl₂.trans (hl₃.trans hl₄))

/-! The evaluator -/

/-- Whether one way of evaluating follows another, for the expressions that parsers build and that are in order. -/
def EvaluatesAlike (P : Token → Prop) (evaluate' : Context → Expr → Lexical Value) (evaluate : Expr → Run Value) :
    Prop :=
  ∀ e : Expr, e.Formed P → ∀ Φ : Frames, e.orderly Φ → ∀ D s, Faithful P D s →
    Stands D s.machine.scopes Φ s.machine.current →
      Follows P (evaluate' Φ.context e) (evaluate e) D s fun v D' s' => Placed P D' s' v

theorem follows_mapM {evaluate' : Context → Expr → Lexical Value} {evaluate : Expr → Run Value}
    (hev : EvaluatesAlike P evaluate' evaluate) (es : List Expr) : (∀ e ∈ es, e.Formed P) → Expr.orderlyAll Φ es →
      ∀ D s, Faithful P D s → Stands D s.machine.scopes Φ s.machine.current →
        Follows P (es.mapM (evaluate' Φ.context)) (es.mapM evaluate) D s
          fun vs D' s' => ∀ v ∈ vs, Placed P D' s' v := by
  induction es with
  | nil =>
    intro _ _ D s hs _
    rw [List.mapM_nil, List.mapM_nil]
    exact follows_pure hs nofun
  | cons e es ih =>
    intro hes horderly D s hs hst
    obtain ⟨he, hes⟩ := List.forall_mem_cons.1 hes
    rw [Expr.orderlyAll, Bool.and_eq_true] at horderly
    rw [List.mapM_cons, List.mapM_cons]
    refine (hev e he Φ horderly.1 D s hs hst).bind fun v D₁ s₁ hl₁ hv => ?_
    refine (ih hes horderly.2 D₁ s₁ hl₁.faithful (hst.later hl₁)).bind fun vs D₂ s₂ hl₂ hvs => ?_
    exact follows_pure hl₂.faithful (List.forall_mem_cons.2 ⟨hv.mono hl₂.toExtends, hvs⟩)

theorem evaluatesAlike_succ {rounds depth : Nat} (hev : EvaluatesAlike P (evaluate rounds depth) (Lox.evaluate rounds depth))
    (hex : ExecutesAlike P (execute rounds depth) (Lox.execute rounds depth)) :
    EvaluatesAlike P (evaluate rounds (depth + 1)) (Lox.evaluate rounds (depth + 1)) := by
  intro e he Φ horderly D s hs hst
  unfold evaluate Lox.evaluate
  cases he with
  | literal value =>
    refine follows_pure hs (placed_of_ne ?_)
    cases value <;> exact nofun
  | grouping hi =>
    rw [Expr.orderly] at horderly
    exact hev _ hi Φ horderly D s hs hst
  | unary hk hr =>
    rw [Expr.orderly] at horderly
    exact (hev _ hr Φ horderly D s hs hst).bind fun v D₁ s₁ hl _ => (plain_of_outright (Run.outright_unary _ v)).follows hl.faithful
  | @binary left operator right hk hl hr =>
    rw [Expr.orderly, Bool.and_eq_true] at horderly
    refine (hev _ hl Φ horderly.1 D s hs hst).bind fun l D₁ s₁ hl₁ hv => ?_
    have hright := hev _ hr Φ horderly.2 D₁ s₁ hl₁.faithful (hst.later hl₁)
    cases operator.kind with
    | kwOr =>
      dsimp only
      split
      · exact follows_pure hl₁.faithful hv
      · exact hright
    | kwAnd =>
      dsimp only
      split
      · exact hright
      · exact follows_pure hl₁.faithful hv
    | _ => exact hright.bind fun r D₂ s₂ hl₂ _ => (plain_of_outright (Run.outright_binary operator l r)).follows hl₂.faithful
  | «variable» hn =>
    rw [Expr.orderly] at horderly
    exact follows_lookUp hs hst horderly
  | assign hn hv =>
    rw [Expr.orderly, Bool.and_eq_true] at horderly
    refine (hev _ hv Φ horderly.2 D s hs hst).bind fun v D₁ s₁ hl₁ hv => ?_
    exact (follows_assign hl₁.faithful (hst.later hl₁) horderly.1 hv).andThen fun _ _ _ _ hv => hv
  | get hn ho =>
    rw [Expr.orderly] at horderly
    refine (hev _ ho Φ horderly D s hs hst).bind fun v D₁ s₁ hl₁ _ => ?_
    cases v with
    | «instance» o => exact follows_property hl₁.faithful o _
    | nil | bool | number | string | function | «class» | native => exact follows_fail _ _
  | @set _ name _ hn ho hv =>
    rw [Expr.orderly, Bool.and_eq_true] at horderly
    refine (hev _ ho Φ horderly.1 D s hs hst).bind fun w D₁ s₁ hl₁ _ => ?_
    cases w with
    | «instance» o =>
      refine (hev _ hv Φ horderly.2 D₁ s₁ hl₁.faithful (hst.later hl₁)).bind fun v D₂ s₂ hl₂ hv => ?_
      have hfield := hl₂.faithful.later_setField o name.lexeme hv
      exact (follows_modify hfield (hv.mono hfield.toExtends)).andThen fun _ _ _ _ hv => hv
    | nil | bool | number | string | function | «class» | native => exact follows_fail _ _
  | call paren hc hes =>
    rw [Expr.orderly, Bool.and_eq_true] at horderly
    refine (hev _ hc Φ horderly.1 D s hs hst).bind fun f D₁ s₁ hl₁ hf => ?_
    refine (follows_mapM hev _ hes horderly.2 D₁ s₁ hl₁.faithful (hst.later hl₁)).bind fun vs D₂ s₂ hl₂ hvs => ?_
    exact follows_checkedCall hex hl₂.faithful paren (hf.mono hl₂.toExtends) hvs
  | this => exact follows_search hs _

theorem executesAlike_succ {rounds depth : Nat} (hev : EvaluatesAlike P (evaluate rounds depth) (Lox.evaluate rounds depth))
    (hex : ExecutesAlike P (execute rounds depth) (Lox.execute rounds depth)) :
    ExecutesAlike P (execute rounds (depth + 1)) (Lox.execute rounds (depth + 1)) := by
  intro t ht Φ horderly hdeclared D s hs hst
  unfold execute Lox.execute
  cases ht with
  | expression hi =>
    rw [Stmt.orderly] at horderly
    exact (hev _ hi Φ horderly D s hs hst).andThen fun v D₁ s₁ hl _ => hands_normal.leaves (hst.later hl)
  | print hi =>
    rw [Stmt.orderly] at horderly
    refine (hev _ hi Φ horderly D s hs hst).bind fun v D₁ s₁ hl₁ _ => ?_
    have hwrite : Follows P (lift (modify fun m => m.write (m.display v)))
        (modify fun m => m.write (m.display v)) D₁ s₁ fun _ _ _ => True :=
      follows_modify (hl₁.faithful.later_write (s₁.machine.display v)) trivial
    exact hwrite.andThen fun _ D₂ s₂ hl₂ _ => hands_normal.leaves (hst.later (hl₁.trans hl₂))
  | @var name o hn ho =>
    have hdefine (D₁ s₁) (hs₁ : Faithful P D₁ s₁) (hst₁ : Stands D₁ s₁.machine.scopes Φ s₁.machine.current) (v : Value)
        (hv : Placed P D₁ s₁ v) :
        Follows P (do lift (Run.define name v); pure .normal) (do Run.define name v; pure .normal) D₁ s₁
          (Leaves P Φ [name.lexeme]) :=
      (follows_define hs₁ hst₁ (fun F hF => hdeclared F hF _ (List.mem_singleton_self _))
        fun _ => hv.mono (extends_define ..)).andThen fun _ _ _ _ hsettled => ⟨hands_normal, fun _ => hsettled⟩
    cases o with
    | none => exact hdefine D s hs hst .nil (placed_of_ne nofun)
    | some e =>
      rw [Stmt.orderly] at horderly
      exact (hev e (ho e rfl) Φ horderly D s hs hst).bind fun v D₁ s₁ hl hv =>
        hdefine D₁ s₁ hl.faithful (hst.later hl) v hv
  | block hts =>
    rw [Stmt.orderly] at horderly
    have hnone : ([] : List Token).length = ([] : List Value).length := rfl
    have hentered := follows_entered hex hs hst hnone (List.forall_mem_nil _) hts horderly
    exact hentered.mono fun c D₁ s₁ hl hc => hc.leaves (hst.later hl)
  | @branch _ _ whenFalse hc ht hdt hf hdf =>
    have hthen (t : Stmt) (ht : t.Formed P) (hdt : t.declares = []) (ho : t.orderly Φ) (D₁ s₁)
        (hl : Later P D s D₁ s₁) :
        Follows P (execute rounds depth Φ.context t) (Lox.execute rounds depth t) D₁ s₁ (Leaves P Φ []) := by
      have hrun := hex t ht Φ ho (by rw [hdt]; exact nofun) D₁ s₁ hl.faithful (hst.later hl)
      rwa [hdt] at hrun
    cases whenFalse with
    | none =>
      rw [Stmt.orderly, Bool.and_eq_true] at horderly
      refine (hev _ hc Φ horderly.1 D s hs hst).bind fun v D₁ s₁ hl _ => ?_
      split
      · exact hthen _ ht hdt horderly.2 D₁ s₁ hl
      · exact follows_pure hl.faithful (hands_normal.leaves (hst.later hl))
    | some t =>
      rw [Stmt.orderly, Bool.and_eq_true, Bool.and_eq_true] at horderly
      refine (hev _ hc Φ horderly.1.1 D s hs hst).bind fun v D₁ s₁ hl _ => ?_
      split
      · exact hthen _ ht hdt horderly.1.2 D₁ s₁ hl
      · exact hthen t (hf t rfl) (hdf t rfl) horderly.2 D₁ s₁ hl
  | @«while» condition body hc hb hd =>
    rw [Stmt.orderly, Bool.and_eq_true] at horderly
    have hcondition (D s) (hs : Faithful P D s) (hst : Stands D s.machine.scopes Φ s.machine.current) :
        Follows P (Value.isTruthy <$> evaluate rounds depth Φ.context condition)
          (Value.isTruthy <$> Lox.evaluate rounds depth condition) D s fun _ _ _ => True :=
      Follows.map ((hev _ hc Φ horderly.1 D s hs hst).mono fun _ _ _ _ _ => trivial)
    have hbody (D s) (hs : Faithful P D s) (hst : Stands D s.machine.scopes Φ s.machine.current) :=
      (hex _ hb Φ horderly.2 (by rw [hd]; exact nofun) D s hs hst).mono fun _ _ _ _ hc => hc.hands
    exact (follows_loop hcondition hbody rounds D s hs hst).mono fun c D₁ s₁ hl hc => hc.leaves (hst.later hl)
  | @function name params body hn hp hb =>
    rw [Stmt.orderly] at horderly
    have hmake := follows_newFunction (Φ := Φ.settle [name.lexeme]) hs (fun m => ⟨⟨name, params, body⟩, m.current, false⟩)
      ⟨hn, hp, hb⟩ horderly
    rw [Frames.context_settle] at hmake
    refine hmake.bind fun id D₁ s₁ hl hw => ?_
    have hname := fun F hF => hdeclared F hF name.lexeme (List.mem_singleton_self _)
    refine (follows_define hl.faithful (hst.later hl) hname fun hsettled => ?_).andThen
      fun _ _ _ _ hsettled => ⟨hands_normal, fun _ => hsettled⟩
    rintro _ ⟨⟩
    exact ⟨_, _, hw.mono (extends_define D₁ ..), hl.current ▸ hsettled⟩
  | @«return» o _ ho =>
    cases o with
    | none => exact follows_pure hs ⟨hands_returned (placed_of_ne nofun), nofun⟩
    | some e =>
      rw [Stmt.orderly] at horderly
      exact (hev e (ho e rfl) Φ horderly D s hs hst).bind fun v _ _ hl hv =>
        follows_pure hl.faithful ⟨hands_returned hv, nofun⟩
  | @«class» name _ hn hts hds =>
    rw [Stmt.orderly] at horderly
    have hname := fun F hF => hdeclared F hF name.lexeme (List.mem_singleton_self _)
    exact (follows_declareClass hs hst hname hts hds horderly).andThen
      fun _ _ _ _ hsettled => ⟨hands_normal, fun _ => hsettled⟩

/-- Evaluation by lexical scoping follows evaluation by search, on whatever is in order. -/
theorem evaluatesAlike_executesAlike (P : Token → Prop) (rounds : Nat) : ∀ depth,
    EvaluatesAlike P (evaluate rounds depth) (Lox.evaluate rounds depth) ∧
      ExecutesAlike P (execute rounds depth) (Lox.execute rounds depth)
  | 0 => by
    refine ⟨fun e _ Φ _ D s _ _ => ?_, fun t _ Φ _ _ D s _ _ => ?_⟩
    · unfold evaluate Lox.evaluate
      exact follows_throw _
    · unfold execute Lox.execute
      exact follows_throw _
  | depth + 1 =>
    have ⟨hev, hex⟩ := evaluatesAlike_executesAlike P rounds depth
    ⟨evaluatesAlike_succ hev hex, executesAlike_succ hev hex⟩

theorem follows_interpret (limits : Limits) (ts : List Stmt) : (∀ t ∈ ts, t.Formed P) → Stmt.orderlyAll [] ts →
    ∀ D s, Faithful P D s → s.machine.current = globals →
      Follows P (interpret limits ts) (Lox.interpret limits ts) D s fun _ _ _ => True := by
  induction ts with
  | nil => exact fun _ _ D s hs _ => follows_pure hs trivial
  | cons t ts ih =>
    intro hts horderly D s hs hcurrent
    obtain ⟨ht, hts⟩ := List.forall_mem_cons.1 hts
    rw [Stmt.orderlyAll, Bool.and_eq_true] at horderly
    have hst : Stands D s.machine.scopes [] s.machine.current := hcurrent ▸ .outside
    have hfirst := (evaluatesAlike_executesAlike P limits.rounds limits.depth).2 t ht [] horderly.1 nofun D s hs hst
    exact hfirst.bind fun c D₁ s₁ hl _ => ih hts horderly.2 D₁ s₁ hl.faithful (hl.current.trans hcurrent)

end Lexical
end Lox
