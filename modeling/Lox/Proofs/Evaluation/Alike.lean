import Lox.Proofs.Machine.Alike
import Lox.Proofs.Tree.Formed
import Lox.Proofs.Evaluation.Operators

/-! Runs from machines that differ in empty scopes. What a program does there is the same: it gives the same, writes
the same and ends over the same problem, and the machines it leaves differ in empty scopes again. `Matches` says this of
two runs, with a rule for each way of putting runs together and a law for each operation. -/

namespace Lox
namespace Run

open Machine

variable {α β γ δ : Type} {T T₁ : Pairing} {m m' m₁ m₁' : Machine} {i j : ScopeId} {f f' : FunctionObject}

/-- How two runs end. `R` says how what they give compares. -/
inductive EndsAlike (T : Pairing) (m m' : Machine) (R : Pairing → α → β → Prop) :
    EStateM.Result Interrupt Machine α → EStateM.Result Interrupt Machine β → Prop where
  | ok {T₁ : Pairing} {a : α} {b : β} {m₁ m₁' : Machine} : Widens T m m' T₁ m₁ m₁' → m₁.Alike T₁ m₁' → R T₁ a b →
      EndsAlike T m m' R (.ok a m₁) (.ok b m₁')
  | error {T₁ : Pairing} {i : Interrupt} {m₁ m₁' : Machine} : Widens T m m' T₁ m₁ m₁' → m₁.Alike T₁ m₁' →
      EndsAlike T m m' R (.error i m₁) (.error i m₁')

def Matches (T : Pairing) (m m' : Machine) (R : Pairing → α → β → Prop) (p : Run α) (q : Run β) : Prop :=
  EndsAlike T m m' R (p m) (q m')

/-- Giving the same. -/
def Same : Pairing → α → α → Prop := fun _ a b => a = b

variable {R : Pairing → α → β → Prop} {S : Pairing → γ → δ → Prop} {p : Run α} {q : Run β} {g : α → Run γ} {h : β → Run δ}

/-! Rules for runs -/

theorem EndsAlike.trans {x : EStateM.Result Interrupt Machine α} {y : EStateM.Result Interrupt Machine β}
    (hxy : EndsAlike T₁ m₁ m₁' R x y) (hw : Widens T m m' T₁ m₁ m₁') : EndsAlike T m m' R x y := by
  cases hxy with
  | ok hw' ha hr => exact .ok (hw.trans hw') ha hr
  | error hw' ha => exact .error (hw.trans hw') ha

theorem Matches.bind (hp : Matches T m m' R p q)
    (hf : ∀ T₁ m₁ m₁' a b, Widens T m m' T₁ m₁ m₁' → m₁.Alike T₁ m₁' → R T₁ a b → Matches T₁ m₁ m₁' S (g a) (h b)) :
    Matches T m m' S (p >>= g) (q >>= h) := by
  unfold Matches at hp
  show EndsAlike T m m' S (EStateM.bind p g m) (EStateM.bind q h m')
  unfold EStateM.bind
  generalize p m = x, q m' = y at hp
  cases hp with
  | ok hw ha hr => exact (hf _ _ _ _ _ hw ha hr).trans hw
  | error hw ha => exact .error hw ha

theorem matches_pure (ha : m.Alike T m') {a : α} {b : β} (hr : R T a b) : Matches T m m' R (pure a) (pure b) :=
  .ok (.refl T m m') ha hr

theorem matches_throw (ha : m.Alike T m') (i : Interrupt) : Matches T m m' R (throw i) (throw i) :=
  .error (.refl T m m') ha

theorem matches_fail (ha : m.Alike T m') (token : Token) (problem : RuntimeProblem) :
    Matches T m m' R (fail token problem) (fail token problem) := matches_throw ha _

theorem matches_get {g : Machine → Run γ} {h : Machine → Run δ} (hgh : Matches T m m' S (g m) (h m')) :
    Matches T m m' S (get >>= g) (get >>= h) := hgh

theorem matches_make {operation : Machine → α × Machine} {operation' : Machine → β × Machine}
    (hw : Widens T m m' T₁ (operation m).2 (operation' m').2) (ha : (operation m).2.Alike T₁ (operation' m').2)
    (hr : R T₁ (operation m).1 (operation' m').1) : Matches T m m' R (make operation) (make operation') := .ok hw ha hr

theorem Matches.inScope (hpq : Matches T { m with current := i } { m' with current := j } R p q) :
    Matches T m m' R (Run.inScope i p) (Run.inScope j q) := by
  unfold Matches at hpq ⊢
  unfold Run.inScope
  generalize p { m with current := i } = x, q { m' with current := j } = y at hpq
  cases hpq with
  | ok hw ha hr => exact .ok ⟨hw.scopes, rfl, rfl⟩ (ha.move _ _) hr
  | error hw ha => exact .error ⟨hw.scopes, rfl, rfl⟩ (ha.move _ _)

/-- A run in another scope of which the other side does without. -/
theorem Matches.inScopeLeft (hpq : Matches T { m with current := i } m' R p q) : Matches T m m' R (Run.inScope i p) q := by
  unfold Matches at hpq ⊢
  unfold Run.inScope
  generalize p { m with current := i } = x, q m' = y at hpq
  cases hpq with
  | @ok _ _ _ _ m₁' hw ha hr => exact .ok ⟨hw.scopes, rfl, hw.right⟩ (ha.move _ m₁'.current) hr
  | @error _ _ _ m₁' hw ha => exact .error ⟨hw.scopes, rfl, hw.right⟩ (ha.move _ m₁'.current)

theorem Matches.inScopeRight (hpq : Matches T m { m' with current := j } R p q) : Matches T m m' R p (Run.inScope j q) := by
  unfold Matches at hpq ⊢
  unfold Run.inScope
  generalize p m = x, q { m' with current := j } = y at hpq
  cases hpq with
  | @ok _ _ _ m₁ _ hw ha hr => exact .ok ⟨hw.scopes, hw.left, rfl⟩ (ha.move m₁.current _) hr
  | @error _ _ m₁ _ hw ha => exact .error ⟨hw.scopes, hw.left, rfl⟩ (ha.move m₁.current _)

theorem Matches.limiting (paren : Token) (hpq : Matches T m m' R p q) :
    Matches T m m' R (Run.limiting paren p) (Run.limiting paren q) := by
  unfold Matches at hpq ⊢
  unfold Run.limiting
  generalize p m = x, q m' = y at hpq
  cases hpq with
  | ok hw ha hr => exact .ok hw ha hr
  | @error _ i _ _ hw ha => cases i <;> exact .error hw ha

/-! Functions -/

theorem matches_functionObject (ha : m.Alike T m') (id : FunctionId) :
    Matches T m m' SameFunction (functionObject id) (functionObject id) := by
  have hf := ha.functions id
  unfold Matches functionObject
  generalize m.functions[id]? = r, m'.functions[id]? = r' at hf
  cases hf with
  | none => exact .error (.refl T m m') ha
  | some hf => exact .ok (.refl T m m') ha hf

theorem matches_bind (ha : m.Alike T m') (hf : SameFunction T f f') (receiver : Value) :
    Matches T m m' SameFunction (bind f receiver) (bind f' receiver) := by
  have hnew := T.add_self m.scopes.size m'.scopes.size
  exact matches_make ((widens_newScope T m m' f.closure f'.closure).trans (widens_define ..))
    ((ha.newScope (.pair hf.closure)).define hnew "this" receiver) ⟨hf.declaration, hf.isInitializer, hnew⟩

theorem matches_newFunction (ha : m.Alike T m') (hf : SameFunction T f f') :
    Matches T m m' Same (make (·.newFunction f)) (make (·.newFunction f')) :=
  matches_make ⟨.refl T _ _, rfl, rfl⟩ (ha.newFunction hf) ha.size_functions.symm

theorem matches_enter (ha : m.Alike T m') (hf : SameFunction T f f') (arguments : List Value) :
    Matches T m m' (fun T => T) (enter f arguments) (enter f' arguments) := by
  have hnew := T.add_self m.scopes.size m'.scopes.size
  unfold enter
  rw [hf.declaration]
  exact matches_make ((widens_newScope T m m' f.closure f'.closure).trans (widens_foldl_define ..))
    (Alike.foldl_define hnew _ (ha.newScope (.pair hf.closure))) hnew

theorem matches_readAt (ha : m.Alike T m') (hT : T i j) (name : String) :
    Matches T m m' Same (readAt i 0 name) (readAt j 0 name) := by
  have hread : (m.scopes.bindings i).get? name = (m'.scopes.bindings j).get? name := by rw [ha.scopes.bindings hT]
  unfold Matches readAt Scopes.getAt?
  rw [Scopes.ancestor?_zero, Scopes.ancestor?_zero]
  exact .ok (.refl T m m') ha (congrArg (Option.getD · Value.nil) hread)

theorem matches_result (ha : m.Alike T m') (hf : SameFunction T f f') (c : Completion) :
    Matches T m m' Same (result f c) (result f' c) := by
  unfold result
  rw [hf.isInitializer]
  split
  · exact matches_readAt ha hf.closure "this"
  · cases c <;> exact matches_pure ha rfl

/-! Runs that do the same -/

/-- Whether two machines stand in places from which the ways outward come through paired scopes. -/
def Facing (T : Pairing) (m m' : Machine) : Prop :=
  Scopes.Beside T m.scopes m'.scopes (some m.current) (some m'.current)

/-- Whether two machines stand in paired scopes. -/
def Paired (T : Pairing) (m m' : Machine) : Prop := T m.current m'.current

/-- A way for two machines to stand that they do not lose while programs run. -/
structure Place (K : Pairing → Machine → Machine → Prop) : Prop where
  facing : ∀ {T m m'}, K T m m' → Facing T m m'
  stable : ∀ {T m m' T₁ m₁ m₁'}, K T m m' → Widens T m m' T₁ m₁ m₁' → K T₁ m₁ m₁'

/-- Whether two runs do the same wherever machines stand as `K` says. -/
def AgreesWith (K : Pairing → Machine → Machine → Prop) (p q : Run α) : Prop :=
  ∀ ⦃T m m'⦄, m.Alike T m' → K T m m' → Matches T m m' Same p q

abbrev Agrees (K : Pairing → Machine → Machine → Prop) (p : Run α) : Prop := AgreesWith K p p

theorem place_facing : Place Facing where
  facing hk := hk
  stable {T m m' T₁ m₁ m₁'} hk hw := by
    unfold Facing
    rw [hw.left, hw.right]
    exact hk.widen hw.scopes

theorem place_paired : Place Paired where
  facing hk := .pair hk
  stable {T m m' T₁ m₁ m₁'} hk hw := by
    unfold Paired
    rw [hw.left, hw.right]
    exact hw.scopes.keeps hk

variable {K : Pairing → Machine → Machine → Prop} {P : Token → Prop} {q : Run α} {h : α → Run γ}

theorem Agrees.facing (hp : Agrees Facing p) (hK : Place K) : Agrees K p := fun _ _ _ ha hk => hp ha (hK.facing hk)

theorem AgreesWith.bind (hp : AgreesWith K p q) (hK : Place K) (hg : ∀ a, AgreesWith K (g a) (h a)) :
    AgreesWith K (p >>= g) (q >>= h) := by
  intro T m m' ha hk
  refine (hp ha hk).bind fun T₁ m₁ m₁' a b hw ha₁ hab => ?_
  cases hab
  exact hg a ha₁ (hK.stable hk hw)

theorem agrees_pure (a : α) : Agrees K (pure a) := fun _ _ _ ha _ => matches_pure ha rfl

theorem agrees_throw (i : Interrupt) : Agrees K (throw i : Run α) := fun _ _ _ ha _ => matches_throw ha i

theorem agrees_fail (token : Token) (problem : RuntimeProblem) : Agrees K (fail token problem : Run α) :=
  agrees_throw _

theorem Agrees.last {g : α → β} (hp : Agrees K p) : Agrees K (p >>= fun a => pure (g a)) := by
  intro T m m' ha hk
  refine (hp ha hk).bind fun T₁ m₁ m₁' a b _ ha₁ hab => ?_
  cases hab
  exact matches_pure ha₁ rfl

theorem Agrees.map (g : α → β) (hp : Agrees K p) : Agrees K (g <$> p) := by
  rw [map_eq_pure_bind]
  exact hp.last

theorem agrees_ite {c : Prop} [Decidable c] {p' q' : Run α} (hp : AgreesWith K p q) (hp' : AgreesWith K p' q') :
    AgreesWith K (if c then p else p') (if c then q else q') := by
  split
  · exact hp
  · exact hp'

theorem Agrees.mapM (hK : Place K) {g : α → Run β} (h : ∀ a, Agrees K (g a)) (as : List α) : Agrees K (as.mapM g) := by
  induction as with
  | nil => exact agrees_pure []
  | cons a as ih =>
    rw [List.mapM_cons]
    exact (h a).bind hK fun _ => ih.last

/-- An operation that the scopes take no part in. -/
theorem agrees_modify {operation : Machine → Machine} (hscopes : ∀ m, (operation m).scopes = m.scopes)
    (hcurrent : ∀ m, (operation m).current = m.current)
    (h : ∀ {T m m'}, m.Alike T m' → (operation m).Alike T (operation m')) : Agrees K (modify operation) := by
  intro T m m' ha _
  have hw : Widens T m m' T (operation m) (operation m') := by
    refine ⟨?_, hcurrent m, hcurrent m'⟩
    rw [hscopes, hscopes]
    exact .refl ..
  exact .ok hw (h ha) rfl

/-- A run in a new scope inside the current one. -/
def inNewScope (p : Run α) : Run α := do
  let scope ← make fun m => m.newScope m.current
  inScope scope p

theorem AgreesWith.inNewScope (hpq : AgreesWith Paired p q) :
    AgreesWith Facing (Run.inNewScope p) (Run.inNewScope q) := by
  intro T m m' ha hk
  have hnew := T.add_self m.scopes.size m'.scopes.size
  exact (hpq ((ha.newScope hk).move _ _) hnew).inScope.trans (widens_newScope T m m' _ _)

/-- A new scope that only one side makes does not change what is done. -/
theorem AgreesWith.inNewScopeLeft (hpq : AgreesWith Facing p q) : AgreesWith Facing (Run.inNewScope p) q := by
  intro T m m' ha hk
  have hcurrent : m.current < m.scopes.size := ha.scopes.lt_left hk _ rfl
  have hfacing := ha.scopes.beside_newLeft hk
  exact (hpq ((ha.newScopeLeft hcurrent).move m.scopes.size m'.current) hfacing).inScopeLeft.trans
    (widens_newScopeLeft T m m' _)

theorem AgreesWith.inNewScopeRight (hpq : AgreesWith Facing p q) : AgreesWith Facing p (Run.inNewScope q) := by
  intro T m m' ha hk
  have hcurrent : m'.current < m'.scopes.size := ha.scopes.lt_right hk _ rfl
  have hfacing := ha.scopes.beside_newRight hk
  exact (hpq ((ha.newScopeRight hcurrent).move m.current m'.scopes.size) hfacing).inScopeRight.trans
    (widens_newScopeRight T m m' _)

/-! Operations -/

theorem agrees_instanceObject (object : InstanceId) : Agrees K (instanceObject object) := by
  intro T m m' ha _
  unfold Matches instanceObject
  rw [ha.instances]
  cases m.instances[object]? with
  | none => exact .error (.refl T m m') ha
  | some o => exact .ok (.refl T m m') ha rfl

theorem agrees_lookUp (name : Token) : Agrees Facing (lookUp name) := by
  intro T m m' ha hk
  unfold Matches lookUp
  rw [ha.scopes.get?_eq hk]
  cases m.scopes.get? m.current name.lexeme with
  | none => exact .error (.refl T m m') ha
  | some v => exact .ok (.refl T m m') ha rfl

theorem agrees_assign (name : Token) (v : Value) : Agrees Facing (assign name v) := by
  intro T m m' ha hk
  have howners := ha.scopes.owner? hk name.lexeme
  unfold Matches assign
  generalize m.scopes.owner? m.current name.lexeme = r, m'.scopes.owner? m'.current name.lexeme = r' at howners
  cases howners with
  | none => exact .error (.refl T m m') ha
  | some hT => exact .ok (widens_define ..) (ha.define hT name.lexeme v) rfl

theorem agrees_define (name : Token) (v : Value) : Agrees Paired (define name v) :=
  fun _ _ _ ha hk => .ok (widens_define ..) (ha.define hk name.lexeme v) rfl

theorem agrees_closure (d : Declaration) (isInitializer : Bool) : Agrees Paired (closure d isInitializer) :=
  fun T _ _ ha hk => matches_make ⟨.refl T _ _, rfl, rfl⟩ (ha.newFunction ⟨rfl, rfl, hk⟩) ha.size_functions.symm

theorem agrees_property (object : InstanceId) (name : Token) : Agrees K (property object name) := by
  intro T m m' ha hk
  refine (agrees_instanceObject object ha hk).bind fun T₁ m₁ m₁' o _ _ ha ho => ?_
  cases ho
  cases o.fields.get? name.lexeme with
  | some v => exact matches_pure ha rfl
  | none =>
    refine matches_get ?_
    rw [ha.findMethod?_eq]
    cases m₁.findMethod? o.cls name.lexeme with
    | none => exact matches_fail ha name _
    | some id =>
      refine (matches_functionObject ha id).bind fun _ _ _ f f' _ ha hf => ?_
      refine (matches_bind ha hf _).bind fun _ _ _ f f' _ ha hf => ?_
      refine (matches_newFunction ha hf).bind fun _ _ _ id _ _ ha hid => ?_
      cases hid
      exact matches_pure ha rfl

theorem Outright.agrees {p : Run Value} (h : Outright p) : Agrees K p := by
  cases h with
  | gives => exact agrees_pure _
  | fails token problem => exact agrees_fail token problem
  | stuck => exact agrees_throw _

/-! Bodies and calls -/

theorem agrees_sequence {execute : Stmt → Run Completion} (h : ∀ s, Agrees Paired (execute s)) (ss : List Stmt) :
    Agrees Paired (sequence execute ss) := by
  induction ss with
  | nil => exact agrees_pure _
  | cons s ss ih =>
    refine (h s).bind place_paired fun c => ?_
    cases c with
    | normal => exact ih
    | returned v => exact agrees_pure _

/-- Whether bodies do the same in paired scopes. -/
def AgreesBody (body : Body) : Prop :=
  ∀ ⦃T m m' i j⦄ ss, m.Alike T m' → T i j → Matches T m m' Same (body i ss) (body j ss)

theorem agreesBody_block {execute : Stmt → Run Completion} (h : ∀ s, Agrees Paired (execute s)) :
    AgreesBody (block execute) :=
  fun _ _ _ i j ss ha hT => Matches.inScope (agrees_sequence h ss (ha.move i j) hT)

theorem agrees_loop {condition condition' : Run Bool} {body body' : Run Completion} (hK : Place K)
    (hc : AgreesWith K condition condition') (hb : AgreesWith K body body') (rounds : Nat) :
    AgreesWith K (loop condition body rounds) (loop condition' body' rounds) := by
  induction rounds with
  | zero => exact agrees_throw _
  | succ rounds ih =>
    refine hc.bind hK fun b => agrees_ite (hb.bind hK fun c => ?_) (agrees_pure _)
    cases c with
    | normal => exact ih
    | returned v => exact agrees_pure _

theorem agrees_callNative (id : NativeId) (arguments : List Value) : Agrees K (callNative id arguments) := by
  intro T m m' ha _
  have hreading : m.clock m.readings = m'.clock m'.readings := by rw [ha.clock, ha.readings]
  have hrule : m'.natives[id]?.map NativeObject.rule = m.natives[id]?.map NativeObject.rule := by rw [ha.natives]
  unfold Matches callNative
  rw [hrule]
  rcases m.natives[id]?.map NativeObject.rule with _ | (_ | _ | _ | _)
  case none => exact .error (.refl T m m') ha
  case some.clock => exact .ok ⟨.refl T _ _, rfl, rfl⟩ ha.tick (congrArg Value.number hreading)
  all_goals exact .ok (.refl T m m') ha rfl

section Calls

variable {body : Body} (hbody : AgreesBody body)

include hbody

theorem matches_callFunction (ha : m.Alike T m') (hf : SameFunction T f f') (arguments : List Value) :
    Matches T m m' Same (callFunction body f arguments) (callFunction body f' arguments) := by
  refine (matches_enter ha hf arguments).bind fun T₁ m₁ m₁' i j hw ha hT => ?_
  have hf₁ : SameFunction T₁ f f' := hf.mono fun _ _ => hw.scopes.keeps
  rw [hf.declaration]
  refine (hbody f.declaration.body ha hT).bind fun T₂ _ _ c _ hw ha hc => ?_
  cases hc
  exact matches_result ha (hf₁.mono fun _ _ => hw.scopes.keeps) c

theorem agrees_construct (cls : ClassId) (arguments : List Value) : Agrees K (construct body cls arguments) := by
  intro T m m' ha _
  have hnew : Matches T m m' Same (make (·.newInstance cls)) (make (·.newInstance cls)) :=
    matches_make ⟨.refl T _ _, rfl, rfl⟩ (ha.newInstance cls) (congrArg Array.size ha.instances.symm)
  refine hnew.bind fun T₁ m₁ m₁' object _ _ ha hobject => matches_get ?_
  cases hobject
  rw [ha.findMethod?_eq]
  cases m₁.findMethod? cls "init" with
  | none => exact matches_pure ha rfl
  | some id =>
    refine (matches_functionObject ha id).bind fun _ _ _ f f' _ ha hf => ?_
    refine (matches_bind ha hf _).bind fun _ _ _ f f' _ ha hf => ?_
    exact (matches_callFunction hbody ha hf arguments).bind fun _ _ _ _ _ _ ha _ => matches_pure ha rfl

theorem agrees_call (callee : Value) (arguments : List Value) : Agrees K (call body callee arguments) := by
  intro T m m' ha hk
  cases callee with
  | function id =>
    exact (matches_functionObject ha id).bind fun _ _ _ _ _ _ ha hf => matches_callFunction hbody ha hf arguments
  | «class» cls => exact agrees_construct hbody cls arguments ha hk
  | native n => exact agrees_callNative n arguments ha hk
  | _ => exact matches_throw ha _

theorem agrees_checkedCall (paren : Token) (callee : Value) (arguments : List Value) :
    Agrees K (checkedCall body paren callee arguments) := by
  intro T m m' ha hk
  refine matches_get ?_
  rw [ha.arity?_eq]
  cases m.arity? callee with
  | none => exact matches_fail ha paren _
  | some expected =>
    dsimp only
    split
    · exact (agrees_call hbody callee arguments ha hk).limiting paren
    · exact matches_fail ha paren _

end Calls

/-! Declarations -/

theorem agrees_methods (ss : List Stmt) (table : Bindings FunctionId) : Agrees Paired (methods ss table) := by
  induction ss generalizing table with
  | nil => exact agrees_pure table
  | cons s ss ih =>
    unfold methods
    cases s.declaration? with
    | none => exact agrees_throw _
    | some d => exact (agrees_closure d _).bind place_paired fun id => ih _

theorem agrees_newClass (c : ClassObject) : Agrees K (make (·.newClass c)) :=
  fun T _ _ ha _ => matches_make ⟨.refl T _ _, rfl, rfl⟩ (ha.newClass c) (congrArg Array.size ha.classes.symm)

theorem agrees_declareClass (name : Token) (ss : List Stmt) : Agrees Paired (declareClass name ss) :=
  (agrees_define name .nil).bind place_paired fun _ => (agrees_methods ss []).bind place_paired fun _ =>
    (agrees_newClass _).bind place_paired fun _ => (agrees_assign name _).facing place_paired

/-! Trees -/

/-- Whether a statement may run where machines stand as `K` says: what declares names needs a scope to declare them in. -/
def Admits (P : Token → Prop) (K : Pairing → Machine → Machine → Prop) (s : Stmt) : Prop :=
  (∀ T m m', K T m m' → Paired T m m') ∨ (s.Formed P ∧ s.declares = [])

theorem admits_paired (P : Token → Prop) (s : Stmt) : Admits P Paired s := .inl fun _ _ _ hk => hk

theorem Admits.paired {s : Stmt} (h : Admits P K s) (hs : s.declares ≠ []) (hp : Agrees Paired p) : Agrees K p := by
  rcases h with hK | ⟨-, hnone⟩
  · exact fun _ _ _ ha hk => hp ha (hK _ _ _ hk)
  · exact absurd hnone hs

theorem Admits.whenTrue {c : Expr} {s : Stmt} {o : Option Stmt} (h : Admits P K (.branch c s o)) : Admits P K s := by
  rcases h with hK | ⟨hf, -⟩
  · exact .inl hK
  · cases hf with
    | branch _ hs hnone _ _ => exact .inr ⟨hs, hnone⟩

theorem Admits.whenFalse {c : Expr} {s t : Stmt} (h : Admits P K (.branch c s (some t))) : Admits P K t := by
  rcases h with hK | ⟨hf, -⟩
  · exact .inl hK
  · cases hf with
    | branch _ _ _ ht hnone => exact .inr ⟨ht t rfl, hnone t rfl⟩

theorem Admits.whileBody {c : Expr} {s : Stmt} (h : Admits P K (.while c s)) : Admits P K s := by
  rcases h with hK | ⟨hf, -⟩
  · exact .inl hK
  · cases hf with
    | «while» _ hs hnone => exact .inr ⟨hs, hnone⟩

theorem agrees_evaluate_execute (P : Token → Prop) (rounds : Nat) : ∀ depth,
    (∀ e, Agrees Facing (evaluate rounds depth e)) ∧
      ∀ K, Place K → ∀ s, Admits P K s → Agrees K (execute rounds depth s)
  | 0 => ⟨fun _ => agrees_throw _, fun _ _ _ _ => agrees_throw _⟩
  | depth + 1 => by
    obtain ⟨he, hs⟩ := agrees_evaluate_execute P rounds depth
    have hpaired (s : Stmt) : Agrees Paired (execute rounds depth s) := hs Paired place_paired s (admits_paired P s)
    constructor
    · intro e
      cases e with
      | literal value => exact agrees_pure _
      | grouping inner => exact he inner
      | unary operator right => exact (he right).bind place_facing fun v => (outright_unary operator v).agrees
      | binary left operator right =>
        refine (he left).bind place_facing fun l => ?_
        split
        · exact agrees_ite (agrees_pure l) (he right)
        · exact agrees_ite (he right) (agrees_pure l)
        · exact (he right).bind place_facing fun r => (outright_binary operator l r).agrees
      | «variable» name => exact agrees_lookUp name
      | assign name value => exact (he value).bind place_facing fun v => (agrees_assign name v).last
      | get object name =>
        refine (he object).bind place_facing fun v => ?_
        cases v with
        | «instance» o => exact agrees_property o name
        | _ => exact agrees_fail name _
      | set object name value =>
        refine (he object).bind place_facing fun v => ?_
        cases v with
        | «instance» o =>
          refine (he value).bind place_facing fun v => Agrees.last ?_
          exact agrees_modify (fun _ => rfl) (fun _ => rfl) fun ha => ha.setField o name.lexeme v
        | _ => exact agrees_fail name _
      | call callee paren arguments =>
        exact (he callee).bind place_facing fun f => (Agrees.mapM place_facing he arguments).bind place_facing fun vs =>
          agrees_checkedCall (agreesBody_block hpaired) paren f vs
      | this keyword => exact agrees_lookUp keyword
      | misplaced statement => exact agrees_throw _
      | unknown kind => exact agrees_throw _
    · intro K hK s hadmits
      have heK (e : Expr) : Agrees K (evaluate rounds depth e) := (he e).facing hK
      cases s with
      | expression inner => exact (heK inner).last
      | print inner =>
        refine (heK inner).bind hK fun v => Agrees.last (agrees_modify (fun _ => rfl) (fun _ => rfl) fun ha => ?_)
        rw [ha.display_eq]
        exact ha.write _
      | var name initializer =>
        refine hadmits.paired (List.cons_ne_nil _ _) ?_
        cases initializer with
        | none => exact (agrees_pure _).bind place_paired fun v => (agrees_define name v).last
        | some e => exact ((he e).facing place_paired).bind place_paired fun v => (agrees_define name v).last
      | block statements =>
        exact Agrees.facing (AgreesWith.inNewScope (agrees_sequence hpaired statements)) hK
      | branch condition whenTrue whenFalse =>
        refine (heK condition).bind hK fun v => agrees_ite (hs K hK whenTrue hadmits.whenTrue) ?_
        cases whenFalse with
        | none => exact agrees_pure _
        | some s => exact hs K hK s hadmits.whenFalse
      | «while» condition body =>
        exact agrees_loop hK ((heK condition).map _) (hs K hK body hadmits.whileBody) rounds
      | function name params body =>
        refine hadmits.paired (List.cons_ne_nil _ _) ?_
        exact (agrees_closure _ _).bind place_paired fun f => (agrees_define name _).last
      | «return» keyword value =>
        cases value with
        | none => exact (agrees_pure _).last
        | some e => exact (heK e).last
      | «class» name methods =>
        refine hadmits.paired (List.cons_ne_nil _ _) ?_
        exact (agrees_declareClass name methods).last
      | misplaced inner => exact agrees_throw _
      | unknown kind => exact agrees_throw _

end Run
end Lox
