import Lox.Proofs.Evaluation.Alters
import Lox.Proofs.Evaluation.Arity
import Lox.Proofs.Session.Reachable

/-! Code that serves an instance: the methods that are fetched from it, the functions that are declared in them, and
what runs when one of these is called, however late. In all of it `this` is that instance. -/

namespace Lox

/-- Where code is in a machine: in a function, or running. -/
inductive Place where
  | function (id : FunctionId)
  | running

namespace Machine

open Run

/-- What is known along the way into code: of the machine in which a method is fetched, of what is done in between, of
the functions that are declared and of the arguments that are passed. -/
structure Setting where
  start : Machine → Prop
  meanwhile : Machine → Machine → Prop
  declared : Declaration → Prop
  passed : Machine → Value → Prop

/-- What is known in a session. -/
def Setting.reachable : Setting where
  start m := m.Reachable Token.Spelled
  meanwhile := Steps Token.Spelled
  declared d := d.Formed Token.Spelled
  passed := Known

/-- What is known if anything may be done to a machine, but for the names that are bound. -/
def Setting.changing (P : Token → Prop) : Setting where
  start m := m.Coded (Declaration.Formed P)
  meanwhile m m' := ∃ us, Changes (Names P) (Declaration.Formed P) m us m'
  declared d := d.Formed P
  passed _ _ := True

/-- The machines with code that serves `o`. A method does that was fetched from it, a function that such code declares,
and the body of either when it is called, with the blocks in it. -/
inductive Serves (S : Setting) (o : InstanceId) : Place → Machine → Prop where
  | fetched {m m' : Machine} {i : InstanceObject} {name : Token} {id : FunctionId} : S.start m →
      m.instances[o]? = some i → i.fields.get? name.lexeme = none → property o name m = .ok (.function id) m' →
        Serves S o (.function id) m'
  | declared {m m' : Machine} {d : Declaration} {isInitializer : Bool} {id : FunctionId} : Serves S o .running m →
      S.declared d → closure d isInitializer m = .ok id m' → Serves S o (.function id) m'
  | called {m m' : Machine} {id : FunctionId} {f : FunctionObject} {vs : List Value} {scope : ScopeId} :
      Serves S o (.function id) m → m.functions[id]? = some f → (∀ v ∈ vs, S.passed m v) →
        Run.enter f vs m = .ok scope m' → Serves S o .running { m' with current := scope }
  | block {m m' : Machine} {scope : ScopeId} : Serves S o .running m →
      make (·.newScope m.current) m = .ok scope m' → Serves S o .running { m' with current := scope }
  | later {m m' : Machine} {place : Place} : Serves S o place m → S.meanwhile m m' →
      (place = .running → m'.current = m.current) → Serves S o place m'

/-- The machines in which code runs that serves `o`, whatever is done besides. -/
abbrev InBound (P : Token → Prop) (o : InstanceId) : Machine → Prop := Serves (.changing P) o .running

/-- What it means that the calls of a function serve an instance: with as many arguments as there are parameters, each
runs the body in a machine with code that does. -/
def CallsServe (S : Setting) (o : InstanceId) (id : FunctionId) (m : Machine) : Prop :=
  ∃ f, m.functions[id]? = some f ∧ ∀ vs, (∀ v ∈ vs, S.passed m v) → f.declaration.params.length = vs.length →
    ∃ scope m', Entered f vs m scope m' ∧ Serves S o .running { m' with current := scope } ∧
      ∀ rounds depth paren, checkedCall (block (execute rounds depth)) paren (.function id) vs m =
        limiting paren (inScope scope (sequence (execute rounds depth) f.declaration.body) >>= result f) m'

/-- Whether `this` is `o` at a place. -/
def ThisAt (m : Machine) (o : InstanceId) : Place → Prop
  | .function id => ∃ f, m.functions[id]? = some f ∧ m.scopes.get? f.closure "this" = some (.instance o)
  | .running => m.scopes.get? m.current "this" = some (.instance o)

variable {P : Token → Prop} {S : Setting} {m m' : Machine} {o : InstanceId} {place : Place}

/-! Machines of sessions -/

theorem Reachable.coded (h : m.Reachable P) : m.Coded (Declaration.Formed P) :=
  fun id f hf => (h.sound.functions id f hf).declaration

/-- Code in a session is code of a machine to which things are done. -/
theorem Serves.changing (h : Serves .reachable o place m) : Serves (.changing Token.Spelled) o place m := by
  induction h with
  | fetched hm hi hfield hr => exact .fetched hm.coded hi hfield hr
  | declared _ hd hclosure ih => exact .declared ih hd hclosure
  | called _ hf _ henter ih => exact .called ih hf (fun _ _ => trivial) henter
  | block _ hmake ih => exact .block ih hmake
  | later _ hsteps hcurrent ih => exact .later ih hsteps.changes hcurrent

theorem Serves.reachable (h : Serves .reachable o place m) : m.Reachable Token.Spelled := by
  induction h with
  | @fetched m m' i name id hm hi _ hr => exact hm.steps ((keeps_property hm.sound ⟨i, hi⟩ name).ok hr).1.steps
  | @declared m m' d isInitializer id _ hd hclosure ih =>
    cases hclosure
    exact ih.steps (.single (.newFunction ⟨ih.sound.current, hd⟩))
  | called _ hf hvs henter ih =>
    have hsound := ih.sound.functions _ _ hf
    cases henter
    exact ih.steps (steps_into hsound.closure hsound.declaration.params hvs)
  | block _ hmake ih =>
    cases hmake
    exact ih.steps (steps_into ih.sound.current (List.forall_mem_nil _) (List.forall_mem_nil _))
  | later _ hsteps _ ih => exact ih.steps hsteps

/-! `this` -/

/-- A scope that is entered inside one in which `this` has a value has that value of it too. -/
theorem this_enter (hP : ThisReserved P) {parent : ScopeId} {v : Value} (h : m.scopes.get? parent "this" = some v)
    {params : List Token} (hparams : ∀ p ∈ params, p.IsName P) (arguments : List Value) :
    (m.enter parent params arguments).2.scopes.get? m.scopes.size "this" = some v := by
  have hparent : parent < m.scopes.size := lt_size_of_get? h
  have hdefines := changes_foldl_define m.scopes.size (params.zip arguments)
    (fun _ hp => hparams _ (List.of_mem_zip hp).1) (m.newScope parent).2
  have hsize : m.scopes.size < (m.newScope parent).2.scopes.size := by
    rw [show (m.newScope parent).2.scopes.size = _ from Scopes.size_new ..]
    exact Nat.lt_succ_self _
  have hbare : ((m.enter parent params arguments).2.scopes.bindings m.scopes.size).get? "this" = none := by
    refine (hdefines.get?_this hP hsize).trans ?_
    show ((m.scopes.new (some parent)).2.bindings m.scopes.size).get? "this" = none
    rw [Scopes.bindings_new, Scopes.bindings_of_size_le _ (Nat.le_refl _)]
    rfl
  have hall := (Change.newScope (N := Names P) (D := Declaration.Formed P) (m := m) parent).single.trans hdefines
  have howns : ¬ ((m.enter parent params arguments).2.scopes.bindings m.scopes.size).owns "this" := by
    unfold Bindings.owns
    rw [hbare]
    exact Bool.false_ne_true
  have houter := Scopes.owner?_of_parent? _ howns (parent?_enter m parent params arguments) hparent
  unfold Scopes.get?
  rw [houter]
  exact (hall.lookUp_this hP hparent).trans h

theorem changes_enter (m : Machine) (parent : ScopeId) {params : List Token} (hparams : ∀ p ∈ params, p.IsName P)
    (arguments : List Value) : Changes (Names P) (Declaration.Formed P) m []
      { (m.enter parent params arguments).2 with current := m.scopes.size } :=
  ((Change.newScope parent).single.trans
    (changes_foldl_define m.scopes.size _ (fun _ hp => hparams _ (List.of_mem_zip hp).1) _)).tail (.move _)

/-- A property that is no field is a copy of a method with `this` as the instance. -/
theorem this_property {i : InstanceObject} {name : Token} {id : FunctionId}
    (hm : m.Coded (Declaration.Formed P)) (hi : m.instances[o]? = some i) (hfield : i.fields.get? name.lexeme = none)
    (hr : property o name m = .ok (.function id) m') : m'.Coded (Declaration.Formed P) ∧ m'.ThisAt o (.function id) := by
  have hcoded : m'.Coded (Declaration.Formed P) := by
    obtain ⟨⟨us, hus⟩, -⟩ := alters_property o name m hm
    rw [after, hr] at hus
    exact hus.coded hm
  refine ⟨hcoded, ?_⟩
  cases hmethod : m.findMethod? i.cls name.lexeme with
  | none => nomatch (property_eq_error hi hfield hmethod).symm.trans hr
  | some method =>
    cases hg : m.functions[method]? with
    | none =>
      have hgone : functionObject method m = .error (.stuck .danglingReference) m := by rw [functionObject, hg]
      unfold property at hr
      rw [bind_of_ok (instanceObject_eq hi), hfield] at hr
      dsimp only at hr
      rw [bind_of_ok (get_eq m), hmethod] at hr
      dsimp only at hr
      rw [bind_of_error hgone] at hr
      nomatch hr
    | some g =>
      cases (property_eq hi hfield hmethod hg).symm.trans hr
      exact ⟨_, Array.getElem?_push_size, (isReceiver_bind m g o).get?_this⟩

/-- Changes leave `this` as it is, where there is code and where it was declared. -/
theorem ThisAt.changes {us : List Write} (hP : ThisReserved P) (h : m.ThisAt o place)
    (hchanges : Changes (Names P) (Declaration.Formed P) m us m')
    (hcurrent : place = .running → m'.current = m.current) : m'.ThisAt o place := by
  cases place with
  | function id =>
    obtain ⟨f, hf, hthis⟩ := h
    exact ⟨f, hchanges.grows.functions _ _ hf, (hchanges.lookUp_this hP (lt_size_of_get? hthis)).trans hthis⟩
  | running =>
    show m'.scopes.get? m'.current "this" = _
    rw [hcurrent rfl]
    exact (hchanges.lookUp_this hP (lt_size_of_get? h)).trans h

/-- In code that serves an instance `this` is the instance. By induction on the way into that code: every scope on it
lies inside the one that was made for the instance. -/
theorem Serves.this (hP : ThisReserved P) (h : Serves (.changing P) o place m) :
    m.Coded (Declaration.Formed P) ∧ m.ThisAt o place := by
  induction h with
  | fetched hm hi hfield hr => exact this_property hm hi hfield hr
  | declared _ hd hclosure ih =>
    cases hclosure
    exact ⟨ih.1.newFunction hd, _, Array.getElem?_push_size, ih.2⟩
  | @called m m' id f vs scope _ hf _ henter ih =>
    obtain ⟨hm, g, hg, hthis⟩ := ih
    cases hg.symm.trans hf
    have hparams := (hm id f hf).params
    cases henter
    exact ⟨(changes_enter m f.closure hparams vs).coded hm, this_enter hP hthis hparams vs⟩
  | @block m m' scope _ hmake ih =>
    cases hmake
    have hnone : ∀ p ∈ ([] : List Token), p.IsName P := List.forall_mem_nil _
    exact ⟨(changes_enter m m.current hnone []).coded ih.1, this_enter hP ih.2 hnone []⟩
  | later _ hmeanwhile hcurrent ih =>
    obtain ⟨us, hus⟩ := hmeanwhile
    exact ⟨hus.coded ih.1, ih.2.changes hP hus hcurrent⟩

theorem ThisAt.evaluate_this (h : m.ThisAt o .running) (rounds depth : Nat) {keyword : Token}
    (he : (Expr.this keyword).Formed Token.Spelled) :
    evaluate rounds (depth + 1) (.this keyword) m = .ok (.instance o) m := by
  cases he with
  | this hk hspelled =>
    rw [evaluate]
    unfold lookUp
    rw [hspelled.lexeme_eq hk, show m.scopes.get? m.current "this" = _ from h]

/-! Calls -/

/-- A function that serves an instance does so in every call. -/
theorem Serves.callsServe {id : FunctionId} (h : Serves S o (.function id) m) (hthis : m.ThisAt o (.function id)) :
    m.CallsServe S o id := by
  obtain ⟨f, hf, -⟩ := hthis
  have hentered {vs : List Value} (hcount : f.declaration.params.length = vs.length) := entered hcount m
  refine ⟨f, hf, fun vs hvs hcount => ⟨m.scopes.size, _, hentered hcount, ?_, fun rounds depth paren => ?_⟩⟩
  · exact h.called hf hvs (hentered hcount).enter
  · have hanswers : Answers (Run.block (execute rounds depth)) paren m (.function id) vs _ := answers_checkedCall ⟨f, hf⟩
    rcases hanswers.refused_or_entered hf with ⟨hne, -⟩ | ⟨scope, m', hentered', hr⟩
    · exact absurd hcount hne
    · cases (hentered hcount).enter.symm.trans hentered'.enter
      exact hr

end Machine
end Lox
