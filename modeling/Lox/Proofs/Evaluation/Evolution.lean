import Lox.Proofs.Evaluation.Keeps

/-! Every run evolves the machine. Expressions leave no names behind in the scopes there were, statements leave
what they declare and only if they end well, and nothing that a parser builds gets stuck. The calls are taken
first, for any way of executing statements that does so, and then the evaluator by the nesting it may use. -/

namespace Lox
namespace Run

open Machine

variable {P : Token → Prop} {m : Machine}

/-- Whether a way of evaluating does what is said above, for the expressions that parsers build. -/
def Evaluates (P : Token → Prop) (evaluate : Expr → Run Value) : Prop :=
  ∀ e, e.Formed P → ∀ m, m.Sound P → Keeps P [] (evaluate e) m fun v m' => m'.Known v

/-- The same for statements. -/
def Executes (P : Token → Prop) (execute : Stmt → Run Completion) : Prop :=
  ∀ s, s.Formed P → ∀ m, m.Sound P → Keeps P s.declares (execute s) m fun c m' => c.Known m'

/-! Calls -/

section Calls

variable {execute : Stmt → Run Completion}

/-- What statements in order end in. They may leave any names behind. -/
def EndsInside (P : Token → Prop) (m : Machine) : EStateM.Result Interrupt Machine Completion → Prop
  | .ok c m' => (∃ names, Evolves P names m m') ∧ c.Known m'
  | .error i m' => (∃ names, Evolves P names m m') ∧ ∀ s, i ≠ .stuck s

theorem endsInside_sequence (hex : Executes P execute) (ss : List Stmt) :
    (∀ s ∈ ss, s.Formed P) → ∀ m, m.Sound P → EndsInside P m (sequence execute ss m) := by
  induction ss with
  | nil => exact fun _ m _ => ⟨⟨[], .refl P m⟩, trivial⟩
  | cons s ss ih =>
    intro hss m hm
    obtain ⟨hs, hss⟩ := List.forall_mem_cons.1 hss
    have hfirst := hex s hs m hm
    unfold Keeps at hfirst
    show EndsInside P m (EStateM.bind (execute s) _ m)
    unfold EStateM.bind
    cases hr : execute s m with
    | error i m₁ => rw [hr] at hfirst; exact ⟨⟨[], hfirst.1⟩, hfirst.2⟩
    | ok c m₁ =>
      rw [hr] at hfirst
      cases c with
      | returned v => exact ⟨⟨_, hfirst.1⟩, hfirst.2⟩
      | normal =>
        have hrest := ih hss m₁ (hfirst.1.steps.sound hm)
        show EndsInside P m (sequence execute ss m₁)
        cases hr' : sequence execute ss m₁ with
        | ok c m₂ =>
          rw [hr'] at hrest
          obtain ⟨⟨names, h⟩, hc⟩ := hrest
          exact ⟨⟨_, hfirst.1.trans h⟩, hc⟩
        | error i m₂ =>
          rw [hr'] at hrest
          obtain ⟨⟨names, h⟩, hi⟩ := hrest
          exact ⟨⟨_, hfirst.1.trans h⟩, hi⟩

/-- Statements in a scope that is entered for them leave nothing behind outside it. -/
theorem keeps_entered (hex : Executes P execute) (hm : m.Sound P) {parent : ScopeId}
    {params : List Token} {arguments : List Value} (hparent : parent < m.scopes.size)
    (hparams : ∀ p ∈ params, p.IsName P) (hargs : ∀ v ∈ arguments, m.Known v) {ss : List Stmt}
    (hss : ∀ s ∈ ss, s.Formed P) :
    Keeps P [] (make (·.enter parent params arguments) >>= fun scope => block execute scope ss) m
      fun c m' => c.Known m' := by
  obtain ⟨hsteps, hthis⟩ := steps_enter hparent hparams hargs
  have hsize := size_enter m parent params arguments
  let m₁ : Machine := { (m.enter parent params arguments).2 with current := m.scopes.size }
  have hscope : m.scopes.size < (m.enter parent params arguments).2.scopes.size := by omega
  have hm₁ : m₁.Sound P := Step.sound (.move hscope hthis) (hsteps.sound hm)
  have hrun := endsInside_sequence hex ss hss m₁ hm₁
  have hcurrent : (m.enter parent params arguments).2.current = m.current := current_enter ..
  show EndsFrom P [] m _ (inScope m.scopes.size (sequence execute ss) (m.enter parent params arguments).2)
  unfold inScope
  dsimp only
  rw [hcurrent]
  cases hr : sequence execute ss m₁ with
  | ok c m₂ =>
    rw [hr] at hrun
    obtain ⟨⟨names, h⟩, hc⟩ := hrun
    refine ⟨h.within hm hparent hparams hargs, ?_⟩
    cases c with
    | normal => trivial
    | returned v => exact Known.mono (m := m₂) hc { Grows.refl m₂ with }
  | error i m₂ =>
    rw [hr] at hrun
    obtain ⟨⟨names, h⟩, hi⟩ := hrun
    exact ⟨h.within hm hparent hparams hargs, hi⟩

theorem keeps_result (hm : m.Sound P) (f : FunctionObject) {c : Completion} (hc : c.Known m) :
    Keeps P [] (result f c) m fun v m' => m'.Known v := by
  unfold result
  split
  · unfold Keeps
    rw [readAt_zero]
    refine ⟨.refl P m, ?_⟩
    cases hv : (m.scopes.bindings f.closure).get? "this" with
    | none => trivial
    | some v => exact hm.bindings _ _ v hv
  · cases c with
    | normal => exact keeps_pure _ trivial
    | returned v => exact keeps_pure v hc

theorem callFunction_eq (f : FunctionObject) (arguments : List Value) :
    callFunction (block execute) f arguments =
      (make (·.enter f.closure f.declaration.params arguments) >>= fun scope =>
        block execute scope f.declaration.body) >>= result f := (bind_assoc ..).symm

theorem keeps_callFunction (hex : Executes P execute) (hm : m.Sound P) {f : FunctionObject}
    (hf : m.SoundFunction P f) {arguments : List Value} (hargs : ∀ v ∈ arguments, m.Known v) :
    Keeps P [] (callFunction (block execute) f arguments) m fun v m' => m'.Known v := by
  have hbody := keeps_entered hex hm hf.closure hf.declaration.params hargs hf.declaration.body
  rw [callFunction_eq]
  exact hbody.bind hm fun c m₁ _ hm₁ hc => keeps_result hm₁ f hc

/-- A class gives back the instance that is made for the call, whatever its initializer comes to. -/
theorem keeps_construct (hex : Executes P execute) (hm : m.Sound P) {cls : ClassId}
    (hcls : m.Known (.class cls)) {arguments : List Value} (hargs : ∀ v ∈ arguments, m.Known v) :
    Keeps P [] (construct (block execute) cls arguments) m fun v m' => v = .instance m.instances.size ∧
      ∃ o, m'.instances[m.instances.size]? = some o ∧ o.cls = cls := by
  have hmake : Keeps P [] (make (·.newInstance cls)) m fun id m' => id = m.instances.size ∧
      ∃ o, m'.instances[m.instances.size]? = some o ∧ o.cls = cls :=
    keeps_make (evolves_newInstance hcls) ⟨rfl, ⟨cls, []⟩, by simp [newInstance], rfl⟩
  refine hmake.bind hm fun id m₁ hev hm₁ heq => ?_
  obtain ⟨rfl, o, ho, hocls⟩ := heq
  refine keeps_get.bind hm₁ fun a m₂ _ _ heq => ?_
  obtain ⟨rfl, rfl⟩ := heq
  cases hmethod : m₂.findMethod? cls "init" with
  | none => exact keeps_pure _ ⟨rfl, o, ho, hocls⟩
  | some id =>
    obtain ⟨g, hg, -⟩ := exists_of_findMethod? hm₁ hmethod
    refine (keeps_functionObject hg).bind hm₁ fun g' m₃ _ _ heq => ?_
    obtain ⟨rfl, rfl⟩ := heq
    refine (keeps_bind (hm₁.functions id g' hg) ⟨o, ho⟩).bind hm₁ fun b m₄ hev' hm₄ hb => ?_
    refine (keeps_callFunction hex hm₄ hb.2.1 fun v hv =>
      ((hargs v hv).mono hev.grows).mono hev'.grows).bind hm₄ fun _ m₅ hev'' _ _ => ?_
    obtain ⟨o', ho', hcls'⟩ := (hev'.grows.trans hev''.grows).instances _ o ho
    exact keeps_pure _ ⟨rfl, o', ho', hcls'.trans hocls⟩

theorem keeps_callNative {id : NativeId} (hid : m.Known (.native id)) {arguments : List Value}
    (hargs : ∀ v ∈ arguments, m.Known v) :
    Keeps P [] (callNative id arguments) m fun v m' => m'.Known v := by
  obtain ⟨n, hn⟩ := hid
  unfold Keeps callNative
  rw [hn, Option.map_some]
  cases n.rule with
  | clock => exact ⟨evolves_tick, trivial⟩
  | count => exact ⟨.refl P m, trivial⟩
  | first =>
    refine ⟨.refl P m, ?_⟩
    cases hv : arguments.head? with
    | none => trivial
    | some v => exact hargs v (List.mem_of_head? hv)
  | last =>
    refine ⟨.refl P m, ?_⟩
    cases hv : arguments.getLast? with
    | none => trivial
    | some v => exact hargs v (List.mem_of_getLast? hv)

theorem keeps_call (hex : Executes P execute) (hm : m.Sound P) {callee : Value} (hc : m.Known callee)
    (harity : m.arity? callee ≠ none) {arguments : List Value} (hargs : ∀ v ∈ arguments, m.Known v) :
    Keeps P [] (call (block execute) callee arguments) m fun v m' => m'.Known v := by
  cases callee with
  | function id =>
    obtain ⟨f, hf, -⟩ := hc
    refine (keeps_functionObject hf).bind hm fun f' m₁ _ _ heq => ?_
    obtain ⟨rfl, rfl⟩ := heq
    exact keeps_callFunction hex hm (hm.functions id f' hf) hargs
  | «class» id =>
    refine (keeps_construct hex hm hc hargs).mono fun v m' _ hv => ?_
    obtain ⟨rfl, o, ho, -⟩ := hv
    exact ⟨o, ho⟩
  | native id => exact keeps_callNative hc hargs
  | nil | bool | number | string | «instance» => exact absurd rfl harity

theorem keeps_limiting {α : Type} {names : List String} {p : Run α} {Q : α → Machine → Prop}
    (paren : Token) (h : Keeps P names p m Q) : Keeps P names (limiting paren p) m Q := by
  unfold Keeps limiting at *
  cases hr : p m with
  | ok a m' => rwa [hr] at h
  | error i m' =>
    rw [hr] at h
    cases i with
    | tooDeep => exact ⟨h.1, failed_ne_stuck _⟩
    | failed | unfinished | stuck => exact h

theorem keeps_checkedCall (hex : Executes P execute) (hm : m.Sound P) (paren : Token) {callee : Value}
    (hc : m.Known callee) {arguments : List Value} (hargs : ∀ v ∈ arguments, m.Known v) :
    Keeps P [] (checkedCall (block execute) paren callee arguments) m fun v m' => m'.Known v := by
  refine keeps_get.bind hm fun a m₁ _ _ heq => ?_
  obtain ⟨rfl, rfl⟩ := heq
  cases harity : m₁.arity? callee with
  | none => exact keeps_fail paren _
  | some expected =>
    dsimp only
    split
    · exact keeps_limiting paren (keeps_call hex hm hc (by simp [harity]) hargs)
    · exact keeps_fail paren _

end Calls

/-! Operators -/

theorem keeps_unary {operator : Token} (hk : operator.kind ∈ [.bang, .minus]) (right : Value) :
    Keeps P [] (unary operator right) m fun v m' => m'.Known v := by
  unfold unary
  split
  · exact keeps_pure _ trivial
  · exact keeps_pure _ trivial
  · exact keeps_fail operator _
  · simp_all

theorem keeps_quotient (x : Float) {y : Float} (hy : (y == 0) = false) :
    Keeps P [] (quotient x y) m fun _ _ => True := by
  unfold quotient
  rw [hy]
  exact keeps_pure _ trivial

theorem keeps_arithmetic {operator : Token} (x y : Float)
    (hk : operator.kind ∈ [.minus, .star, .slash, .greater, .greaterEqual, .less, .lessEqual]) :
    Keeps P [] (arithmetic operator x y) m fun v m' => m'.Known v := by
  unfold arithmetic
  split
  · exact keeps_pure _ trivial
  · exact keeps_pure _ trivial
  · split
    · exact keeps_fail operator _
    · next hy => exact ((keeps_quotient x (Bool.eq_false_iff.2 hy)).mono fun _ _ _ _ => trivial).map
  · exact keeps_pure _ trivial
  · exact keeps_pure _ trivial
  · exact keeps_pure _ trivial
  · exact keeps_pure _ trivial
  · simp_all

theorem keeps_binary {operator : Token} (hk : operator.kind ∈ Parser.binaryLevels.flatten)
    (hor : operator.kind ≠ .kwOr) (hand : operator.kind ≠ .kwAnd) (left right : Value) :
    Keeps P [] (binary operator left right) m fun v m' => m'.Known v := by
  have hkinds : ∀ k ∈ Parser.binaryLevels.flatten, k ≠ .kwOr → k ≠ .kwAnd → k ≠ .equalEqual →
      k ≠ .bangEqual → k ≠ .plus →
        k ∈ [.minus, .star, .slash, .greater, .greaterEqual, .less, .lessEqual] := by decide
  unfold binary
  split
  · exact keeps_pure _ trivial
  · exact keeps_pure _ trivial
  · exact keeps_pure _ trivial
  · exact keeps_pure _ trivial
  · exact keeps_fail operator _
  · next hequal hbang hplus =>
    exact keeps_arithmetic _ _ (hkinds _ hk hor hand hequal hbang hplus)
  · exact keeps_fail operator _

/-! Loops -/

theorem keeps_loop {condition : Run Bool} {body : Run Completion}
    (hcondition : ∀ m, m.Sound P → Keeps P [] condition m fun _ _ => True)
    (hbody : ∀ m, m.Sound P → Keeps P [] body m fun c m' => c.Known m') (rounds : Nat) :
    ∀ m, m.Sound P → Keeps P [] (loop condition body rounds) m fun c m' => c.Known m' := by
  induction rounds with
  | zero => exact fun m _ => keeps_throw unfinished_ne_stuck
  | succ rounds ih =>
    intro m hm
    refine (hcondition m hm).bind hm fun b m₁ _ hm₁ _ => ?_
    split
    · refine (hbody m₁ hm₁).bind hm₁ fun c m₂ _ hm₂ hc => ?_
      cases c with
      | normal => exact ih m₂ hm₂
      | returned v => exact keeps_pure _ hc
    · exact keeps_pure _ trivial

/-! Declarations of functions and classes -/

theorem soundFunction_closure (hm : m.Sound P) {d : Declaration} (hd : d.Formed P) (isInitializer : Bool) :
    m.SoundFunction P ⟨d, m.current, isInitializer⟩ := ⟨hm.current, hd⟩

/-- The methods of a class are made without fail, and they are functions that exist. -/
theorem exists_methods (ss : List Stmt) :
    (∀ s ∈ ss, s.Formed P) → (∀ s ∈ ss, ∃ d : Declaration, s = d.statement) →
      ∀ (table : Bindings FunctionId) (m : Machine), m.Sound P → m.SoundClass ⟨"", none, table⟩ →
        ∃ table' m', methods ss table m = .ok table' m' ∧ Evolves P [] m m' ∧
          m'.SoundClass ⟨"", none, table'⟩ := by
  induction ss with
  | nil => exact fun _ _ table m _ htable => ⟨table, m, rfl, .refl P m, htable⟩
  | cons s ss ih =>
    intro hss hds table m hm htable
    obtain ⟨hs, hss'⟩ := List.forall_mem_cons.1 hss
    obtain ⟨⟨d, rfl⟩, hds'⟩ := List.forall_mem_cons.1 hds
    let g : FunctionObject := ⟨d, m.current, decide (d.name.lexeme = "init")⟩
    have hev : Evolves P [] m (m.newFunction g).2 :=
      evolves_newFunction (soundFunction_closure hm (Declaration.formed_statement.1 hs) _)
    have htable' : (m.newFunction g).2.SoundClass
        ⟨"", none, table.set d.name.lexeme m.functions.size⟩ := by
      refine ⟨rfl, fun n id hid => ?_⟩
      dsimp only at hid
      rw [Bindings.get?_set] at hid
      split at hid
      · next hn =>
        obtain rfl := Option.some.inj hid
        exact ⟨g, by simp [newFunction], by simp [g, hn]⟩
      · exact (htable.mono hev.grows).methods n id hid
    obtain ⟨table'', m'', hr, hev', hsound⟩ := ih hss' hds' _ _ (hev.steps.sound hm) htable'
    exact ⟨table'', m'', hr, hev.then hev', hsound⟩

/-- A class is declared without fail: the name it is assigned to has just been declared. -/
theorem keeps_declareClass (hm : m.Sound P) {name : Token} (hname : name.IsName P) {ss : List Stmt}
    (hss : ∀ s ∈ ss, s.Formed P) (hds : ∀ s ∈ ss, ∃ d : Declaration, s = d.statement) :
    Keeps P [name.lexeme] (declareClass name ss) m fun _ _ => True := by
  have hnames : Names P name.lexeme := ⟨name, hname, rfl⟩
  let m₁ : Machine := m.define m.current name.lexeme .nil
  have hdefine : Evolves P [name.lexeme] m m₁ := evolves_declare hm hnames trivial
  have hm₁ : m₁.Sound P := hdefine.steps.sound hm
  obtain ⟨table, m₂, hmethods, hev₂, htable⟩ := exists_methods ss hss hds [] m₁ hm₁ ⟨rfl, nofun⟩
  have hm₂ : m₂.Sound P := hev₂.steps.sound hm₁
  let c : ClassObject := ⟨name.lexeme, none, table⟩
  have hev₃ : Evolves P [] m₂ (m₂.newClass c).2 := evolves_newClass ⟨rfl, htable.methods⟩
  let m₃ : Machine := (m₂.newClass c).2
  have hm₃ : m₃.Sound P := hev₃.steps.sound hm₂
  have hcurrent : m₃.current = m.current := (hev₃.current.trans hev₂.current).trans hdefine.current
  have howns : (m₃.scopes.bindings m₃.current).owns name.lexeme := by
    rw [hcurrent]
    refine hev₃.grows.owns _ _ (hev₂.grows.owns _ _ ?_)
    exact (hdefine.owns m.current hm.current name.lexeme).2 (.inr ⟨rfl, List.mem_singleton_self _⟩)
  have hassign : Evolves P [] m₃ (m₃.define m₃.current name.lexeme (.class m₂.classes.size)) :=
    evolves_assign hm₃ hnames ⟨c, by simp [m₃, newClass]⟩ howns
  have hrun : declareClass name ss m =
      .ok () (m₃.define m₃.current name.lexeme (.class m₂.classes.size)) := by
    show EStateM.bind (methods ss []) _ m₁ = _
    unfold EStateM.bind
    rw [hmethods]
    show assign name (.class m₂.classes.size) m₃ = _
    unfold assign
    rw [m₃.scopes.owner?_of_owns howns]
  unfold Keeps
  rw [hrun]
  exact ⟨((hdefine.finish hev₂).finish hev₃).finish hassign, trivial⟩

/-! The evaluator -/

theorem keeps_mapM {evaluate : Expr → Run Value} (hev : Evaluates P evaluate) (es : List Expr) :
    (∀ e ∈ es, e.Formed P) → ∀ m, m.Sound P →
      Keeps P [] (es.mapM evaluate) m fun vs m' => ∀ v ∈ vs, m'.Known v := by
  induction es with
  | nil =>
    intro _ m _
    rw [List.mapM_nil]
    exact keeps_pure [] nofun
  | cons e es ih =>
    intro hes m hm
    obtain ⟨he, hes⟩ := List.forall_mem_cons.1 hes
    rw [List.mapM_cons]
    refine (hev e he m hm).bind hm fun v m₁ _ hm₁ hv => (ih hes m₁ hm₁).bind hm₁ fun vs m₂ hev₂ _ hvs => ?_
    exact keeps_pure _ (List.forall_mem_cons.2 ⟨hv.mono hev₂.grows, hvs⟩)

theorem evaluates_succ {rounds depth : Nat} (hev : Evaluates P (evaluate rounds depth))
    (hex : Executes P (execute rounds depth)) : Evaluates P (evaluate rounds (depth + 1)) := by
  intro e he m hm
  unfold evaluate
  cases he with
  | literal value =>
    refine keeps_pure _ ?_
    cases value <;> trivial
  | grouping hi => exact hev _ hi m hm
  | unary hk hr =>
    exact (hev _ hr m hm).bind hm fun v m₁ _ _ _ => keeps_unary hk v
  | @binary left operator right hk hl hr =>
    refine (hev _ hl m hm).bind hm fun l m₁ _ hm₁ hv => ?_
    split
    · split
      · exact keeps_pure l hv
      · exact hev _ hr m₁ hm₁
    · split
      · exact hev _ hr m₁ hm₁
      · exact keeps_pure l hv
    · next hor hand =>
      exact (hev _ hr m₁ hm₁).bind hm₁ fun r m₂ _ _ _ => keeps_binary hk hor hand l r
  | «variable» => exact keeps_lookUp hm _
  | assign hn hv =>
    refine (hev _ hv m hm).bind hm fun v m₁ _ hm₁ hv => ?_
    refine (keeps_assign hm₁ hn hv).bind hm₁ fun _ m₂ hev₂ _ _ => keeps_pure v (hv.mono hev₂.grows)
  | get hn ho =>
    refine (hev _ ho m hm).bind hm fun v m₁ _ hm₁ hv => ?_
    cases v with
    | «instance» o => exact keeps_property hm₁ hv _
    | nil | bool | number | string | function | «class» | native => exact keeps_fail _ _
  | @set _ name _ hn ho hv =>
    refine (hev _ ho m hm).bind hm fun w m₁ _ hm₁ _ => ?_
    cases w with
    | «instance» o =>
      refine (hev _ hv m₁ hm₁).bind hm₁ fun v m₂ _ hm₂ hv => ?_
      have hset : Keeps P [] (modify fun m => m.setField o name.lexeme v) m₂ fun _ m' => m'.Known v :=
        keeps_modify (evolves_setField o _ hv) (hv.mono (grows_setField m₂ o _ v))
      exact hset.bind hm₂ fun _ m₃ _ _ hv => keeps_pure v hv
    | nil | bool | number | string | function | «class» | native => exact keeps_fail _ _
  | call paren hc hes =>
    refine (hev _ hc m hm).bind hm fun f m₁ _ hm₁ hf => ?_
    refine (keeps_mapM hev _ hes m₁ hm₁).bind hm₁ fun vs m₂ hev₂ hm₂ hvs => ?_
    exact keeps_checkedCall hex hm₂ paren (hf.mono hev₂.grows) hvs
  | this => exact keeps_lookUp hm _

theorem executes_succ {rounds depth : Nat} (hev : Evaluates P (evaluate rounds depth))
    (hex : Executes P (execute rounds depth)) : Executes P (execute rounds (depth + 1)) := by
  intro s hs m hm
  unfold execute
  cases hs with
  | expression hi => exact (hev _ hi m hm).bind hm fun _ _ _ _ _ => keeps_pure _ trivial
  | print hi =>
    refine (hev _ hi m hm).bind hm fun v m₁ _ hm₁ _ => ?_
    have hwrite : Keeps P [] (modify fun m => m.write (m.display v)) m₁ fun _ _ => True :=
      keeps_modify (evolves_output _) trivial
    exact hwrite.bind hm₁ fun _ _ _ _ _ => keeps_pure _ trivial
  | @var name o hn ho =>
    have hdefine (m₁ : Machine) (hm₁ : m₁.Sound P) (v : Value) (hv : m₁.Known v) :
        Keeps P [name.lexeme] (do define name v; pure Completion.normal) m₁ fun c m' => c.Known m' :=
      (keeps_define hm₁ hn hv).andThen Completion.normal fun _ => trivial
    cases o with
    | none => exact hdefine m hm .nil trivial
    | some e => exact (hev e (ho e rfl) m hm).bind hm fun v m₁ _ hm₁ hv => hdefine m₁ hm₁ v hv
  | block hss =>
    exact keeps_entered hex hm hm.current (List.forall_mem_nil _) (List.forall_mem_nil _) hss
  | @branch _ _ whenFalse hc ht hdt hf hdf =>
    refine (hev _ hc m hm).bind hm fun v m₁ _ hm₁ _ => ?_
    split
    · have htrue := hex _ ht m₁ hm₁
      rw [hdt] at htrue
      exact htrue
    · cases whenFalse with
      | none => exact keeps_pure _ trivial
      | some s =>
        have hfalse := hex s (hf s rfl) m₁ hm₁
        rw [hdf s rfl] at hfalse
        exact hfalse
  | «while» hc hb hd =>
    have hbody (m : Machine) (hm : m.Sound P) := hex _ hb m hm
    rw [hd] at hbody
    exact keeps_loop (fun m hm => ((hev _ hc m hm).mono fun _ _ _ _ => trivial).map) hbody rounds m hm
  | @function name params body hn hp hb =>
    have hmake : Keeps P [] (closure ⟨name, params, body⟩ false) m fun id m' => m'.Known (.function id) :=
      keeps_make (evolves_newFunction (soundFunction_closure hm ⟨hn, hp, hb⟩ false))
        ⟨⟨⟨name, params, body⟩, m.current, false⟩, by simp [newFunction], nofun⟩
    refine hmake.bind hm fun id m₁ _ hm₁ hid => ?_
    exact (keeps_define hm₁ hn hid).andThen Completion.normal fun _ => trivial
  | @«return» o _ ho =>
    cases o with
    | none => exact keeps_pure _ trivial
    | some e => exact (hev e (ho e rfl) m hm).bind hm fun v m₁ _ _ hv => keeps_pure (Completion.returned v) hv
  | «class» hn hss hds => exact (keeps_declareClass hm hn hss hds).andThen Completion.normal fun _ => trivial

theorem evaluates_executes (P : Token → Prop) (rounds : Nat) : ∀ depth,
    Evaluates P (evaluate rounds depth) ∧ Executes P (execute rounds depth)
  | 0 => by
    refine ⟨fun e _ m _ => ?_, fun s _ m _ => ?_⟩
    · unfold evaluate
      exact keeps_throw tooDeep_ne_stuck
    · unfold execute
      exact keeps_throw tooDeep_ne_stuck
  | depth + 1 =>
    have ⟨hev, hex⟩ := evaluates_executes P rounds depth
    ⟨evaluates_succ hev hex, executes_succ hev hex⟩

end Run
end Lox
