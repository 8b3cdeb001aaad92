import Lox.Proofs.Evaluation.Calls

/-! What becomes of a call. The callee is evaluated and then the arguments, from left to right. What cannot be called,
or not with that many arguments, is refused where they leave off; a function is entered with as many arguments as it
has parameters, in a new scope that owns these and nothing else. -/

namespace Lox

def Value.isCallable : Value → Bool
  | function _ | .class _ | native _ => true
  | nil | bool _ | number _ | string _ | .instance _ => false

namespace Machine

/-! Entering a scope -/

section Define

variable {m : Machine} {scope : ScopeId} {n : String}

theorem lt_size_define (h : scope < m.scopes.size) (name : String) (v : Value) :
    scope < (m.define scope name v).scopes.size := h.trans_eq (m.scopes.size_define ..).symm

/-- Definitions of other names leave a name alone. -/
theorem get?_foldl_define_of_ne (ps : List (Token × Value)) : ∀ m : Machine, scope < m.scopes.size →
    (∀ p ∈ ps, p.1.lexeme ≠ n) →
      ((ps.foldl (fun m p => m.define scope p.1.lexeme p.2) m).scopes.bindings scope).get? n =
        (m.scopes.bindings scope).get? n := by
  induction ps with
  | nil => exact fun _ _ _ => rfl
  | cons p ps ih =>
    intro m hscope hps
    obtain ⟨hp, hps⟩ := List.forall_mem_cons.1 hps
    rw [List.foldl_cons, ih _ (lt_size_define hscope ..) hps]
    exact (m.scopes.get?_define scope scope _ n p.2 hscope).trans (if_neg fun h => hp h.2)

/-- The last definition of a name is the one that counts. -/
theorem get?_foldl_define {ps before after : List (Token × Value)} {p : Token} {v : Value}
    (hps : ps = before ++ (p, v) :: after) (hscope : scope < m.scopes.size)
    (hafter : ∀ q ∈ after, q.1.lexeme ≠ p.lexeme) :
    ((ps.foldl (fun m p => m.define scope p.1.lexeme p.2) m).scopes.bindings scope).get? p.lexeme = some v := by
  subst hps
  let m₁ : Machine := before.foldl (fun m p => m.define scope p.1.lexeme p.2) m
  have hsize : scope < m₁.scopes.size := hscope.trans_eq (current_size_foldl_define m scope before).2.symm
  rw [List.foldl_append, List.foldl_cons, get?_foldl_define_of_ne after _ (lt_size_define hsize ..) hafter]
  exact (m₁.scopes.get?_define scope scope _ _ v hsize).trans (if_pos ⟨rfl, rfl⟩)

theorem owns_foldl_define (ps : List (Token × Value)) : ∀ m : Machine, scope < m.scopes.size →
    (((ps.foldl (fun m p => m.define scope p.1.lexeme p.2) m).scopes.bindings scope).owns n ↔
      (m.scopes.bindings scope).owns n ∨ ∃ p ∈ ps, p.1.lexeme = n) := by
  induction ps with
  | nil => simp
  | cons p ps ih =>
    intro m hscope
    have hfirst : ((m.define scope p.1.lexeme p.2).scopes.bindings scope).owns n ↔
        (m.scopes.bindings scope).owns n ∨ (scope = scope ∧ n = p.1.lexeme) :=
      m.scopes.owns_define scope scope _ n p.2 hscope
    rw [List.foldl_cons, ih _ (lt_size_define hscope ..), hfirst, or_assoc]
    simp [@eq_comm _ n]

/-- Definitions change nothing but scopes. -/
theorem foldl_define_eq (ps : List (Token × Value)) : ∀ m : Machine,
    { ps.foldl (fun m p => m.define scope p.1.lexeme p.2) m with scopes := m.scopes } = m := by
  induction ps with
  | nil => exact fun _ => rfl
  | cons p ps ih => exact fun m => congrArg (fun m' : Machine => { m' with scopes := m.scopes }) (ih (m.define ..))

end Define

/-- What it means that a function is entered with arguments: they are as many as its parameters, and there is one scope
more, inside that of the function, which owns the parameters and nothing else. A name that several parameters have is
bound to the argument of the last of them. -/
structure Entered (f : FunctionObject) (vs : List Value) (m : Machine) (scope : ScopeId) (m' : Machine) : Prop where
  enter : Run.enter f vs m = .ok scope m'
  arguments : f.declaration.params.length = vs.length
  zip : (f.declaration.params.zip vs).unzip = (f.declaration.params, vs)
  isNew : scope = m.scopes.size ∧ m'.scopes.size = m.scopes.size + 1
  parent : m'.scopes.parent? scope = some f.closure
  owns : ∀ n, (m'.scopes.bindings scope).owns n ↔ ∃ p ∈ f.declaration.params, p.lexeme = n
  bound : ∀ (i : Nat) (p : Token) (v : Value), f.declaration.params[i]? = some p → vs[i]? = some v →
    (∀ j q, i < j → f.declaration.params[j]? = some q → q.lexeme ≠ p.lexeme) →
      (m'.scopes.bindings scope).get? p.lexeme = some v
  around : ∀ s < m.scopes.size, m'.scopes.bindings s = m.scopes.bindings s ∧
    m'.scopes.parent? s = m.scopes.parent? s
  rest : { m' with scopes := m.scopes } = m

theorem entered {f : FunctionObject} {vs : List Value} (h : f.declaration.params.length = vs.length) (m : Machine) :
    Entered f vs m m.scopes.size (m.enter f.closure f.declaration.params vs).2 := by
  let made : Machine := (m.newScope f.closure).2
  have hsize : m.scopes.size < made.scopes.size := by
    rw [show made.scopes.size = _ from Scopes.size_new ..]
    exact Nat.lt_succ_self _
  have hnone : made.scopes.bindings m.scopes.size = [] :=
    (Scopes.bindings_new ..).trans (Scopes.bindings_of_size_le _ (Nat.le_refl _))
  refine ⟨rfl, h, ?_, ⟨rfl, size_enter ..⟩, parent?_enter .., fun n => ?_, fun i p v hp hv hlast => ?_,
    fun s hs => ⟨bindings_enter hs, ?_⟩, ?_⟩
  · rw [List.unzip_zip h]
  · refine (owns_foldl_define (f.declaration.params.zip vs) made hsize).trans ?_
    rw [hnone]
    constructor
    · rintro (ho | ⟨q, hq, hn⟩)
      · cases ho
      · exact ⟨q.1, (List.of_mem_zip hq).1, hn⟩
    · rintro ⟨p, hp, hn⟩
      rw [← List.map_fst_zip (Nat.le_of_eq h)] at hp
      obtain ⟨q, hq, rfl⟩ := List.mem_map.1 hp
      exact .inr ⟨q, hq, hn⟩
  · have hpair : (f.declaration.params.zip vs)[i]? = some (p, v) := List.getElem?_zip_eq_some.2 ⟨hp, hv⟩
    obtain ⟨hi, hpair⟩ := List.getElem?_eq_some_iff.1 hpair
    have hsplit : f.declaration.params.zip vs = (f.declaration.params.zip vs).take i ++
        (p, v) :: (f.declaration.params.zip vs).drop (i + 1) := by
      rw [← hpair, List.getElem_cons_drop, List.take_append_drop]
    refine get?_foldl_define hsplit hsize fun q hq => ?_
    obtain ⟨j, hj⟩ := List.mem_iff_getElem?.1 hq
    rw [List.getElem?_drop] at hj
    exact hlast (i + 1 + j) q.1 (by omega) (List.getElem?_zip_eq_some.1 hj).1
  · exact (grows_foldl_define ..).parents s (hs.trans hsize) |>.trans <|
      (Scopes.parent?_new ..).trans (if_neg (Nat.ne_of_lt hs))
  · exact congrArg (fun m' : Machine => { m' with scopes := m.scopes }) (foldl_define_eq _ made)

/-! How many arguments a value takes -/

/-- How many arguments a value takes. A class takes as many as its initializer has parameters, which may be its own or
that of a class it descends from, and none if there is no initializer. -/
inductive Takes (m : Machine) : Value → Int → Prop where
  | function {id : FunctionId} {f : FunctionObject} : m.functions[id]? = some f →
      Takes m (.function id) f.declaration.params.length
  | initializer {cls : ClassId} {id : FunctionId} {f : FunctionObject} : m.findMethod? cls "init" = some id →
      m.functions[id]? = some f → Takes m (.class cls) f.declaration.params.length
  | noInitializer {cls : ClassId} : m.findMethod? cls "init" = none → Takes m (.class cls) 0
  | native {id : NativeId} {n : NativeObject} : m.natives[id]? = some n → Takes m (.native id) n.arity

/-- Whether what a value is called for is there. -/
def Provides (m : Machine) : Value → Prop
  | .function id => ∃ f, m.functions[id]? = some f
  | .class cls => ∀ id, m.findMethod? cls "init" = some id → ∃ f, m.functions[id]? = some f
  | .native id => ∃ n, m.natives[id]? = some n
  | .nil | .bool _ | .number _ | .string _ | .instance _ => True

theorem Known.provides {P : Token → Prop} {m : Machine} {v : Value} (h : m.Known v) (hm : m.Sound P) :
    m.Provides v := by
  cases v with
  | function id =>
    obtain ⟨f, hf, -⟩ := h
    exact ⟨f, hf⟩
  | «class» cls =>
    intro id hid
    obtain ⟨f, hf, -⟩ := Run.exists_of_findMethod? hm hid
    exact ⟨f, hf⟩
  | native id => exact h
  | nil | bool | number | string | «instance» => trivial

variable {m : Machine} {v : Value}

theorem Takes.arity? {n : Int} (h : m.Takes v n) : m.arity? v = some n := by
  cases h with
  | function hf => simp [Machine.arity?, hf]
  | initializer hid hf => simp [Machine.arity?, hid, hf]
  | noInitializer hid => simp [Machine.arity?, hid]
  | native hn => simp [Machine.arity?, hn]

theorem Provides.takes (h : m.Provides v) (hv : v.isCallable) : ∃ n, m.Takes v n := by
  cases v with
  | function id =>
    obtain ⟨f, hf⟩ := h
    exact ⟨_, .function hf⟩
  | «class» cls =>
    cases hid : m.findMethod? cls "init" with
    | none => exact ⟨_, .noInitializer hid⟩
    | some id =>
      obtain ⟨f, hf⟩ := h id hid
      exact ⟨_, .initializer hid hf⟩
  | native id =>
    obtain ⟨n, hn⟩ := h
    exact ⟨_, .native hn⟩
  | nil | bool | number | string | «instance» => cases hv

theorem arity?_of_not_callable (h : v.isCallable = false) : m.arity? v = none := by
  cases v with
  | function | «class» | native => cases h
  | nil | bool | number | string | «instance» => rfl

end Machine

namespace Run

open Machine

variable {m m' m₁ m₂ : Machine} {α β : Type}

/-! Arguments -/

/-- Whether `run` gives the one result after the other, each in the machine that the one before has left behind. -/
inductive InTurn (run : α → Run β) : Machine → List α → List β → Machine → Prop where
  | nil {m : Machine} : InTurn run m [] [] m
  | cons {a : α} {as : List α} {b : β} {bs : List β} {m m₁ m₂ : Machine} : run a m = .ok b m₁ →
      InTurn run m₁ as bs m₂ → InTurn run m (a :: as) (b :: bs) m₂

theorem inTurn_of_mapM {run : α → Run β} (as : List α) : ∀ {bs m}, as.mapM run m = .ok bs m' →
    InTurn run m as bs m' := by
  induction as with
  | nil =>
    intro bs m h
    cases h
    exact .nil
  | cons a as ih =>
    intro bs m h
    rw [List.mapM_cons] at h
    obtain ⟨b, m₁, hfirst, h⟩ := bind_eq_ok h
    obtain ⟨rest, m₂, hrest, h⟩ := bind_eq_ok h
    cases h
    exact .cons hfirst (ih hrest)

/-- The first that fails ends it. -/
theorem inTurn_of_mapM_error {run : α → Run β} {i : Interrupt} (as : List α) : ∀ {m},
    as.mapM run m = .error i m' →
      ∃ earlier a later bs m₁, as = earlier ++ a :: later ∧ InTurn run m earlier bs m₁ ∧
        run a m₁ = .error i m' := by
  induction as with
  | nil => exact fun h => nomatch h
  | cons a as ih =>
    intro m h
    rw [List.mapM_cons] at h
    rcases bind_eq_error h with h | ⟨b, m₁, hfirst, h⟩
    · exact ⟨[], a, as, [], m, rfl, .nil, h⟩
    rcases bind_eq_error h with h | ⟨rest, m₂, -, h⟩
    · obtain ⟨earlier, a', later, bs, m₂, rfl, hearlier, hlast⟩ := ih h
      exact ⟨a :: earlier, a', later, b :: bs, m₂, rfl, .cons hfirst hearlier, hlast⟩
    · cases h

theorem limiting_congr {paren : Token} {p q : Run α} (h : p m = q m') : limiting paren p m = limiting paren q m' := by
  unfold limiting
  rw [h]

/-! Calls by any way of calling functions -/

section By

variable (calling : FunctionObject → List Value → Run Value)

def constructBy (cls : ClassId) (arguments : List Value) : Run Value := do
  let object ← make (·.newInstance cls)
  match (← get).findMethod? cls "init" with
  | none => pure (.instance object)
  | some f =>
    let bound ← bind (← functionObject f) (.instance object)
    let _ ← calling bound arguments
    pure (.instance object)

def callBy (callee : Value) (arguments : List Value) : Run Value :=
  match callee with
  | .function id => do calling (← functionObject id) arguments
  | .class id => constructBy calling id arguments
  | .native id => callNative id arguments
  | _ => throw (.stuck .danglingReference)

def checkedCallBy (paren : Token) (callee : Value) (arguments : List Value) : Run Value := do
  match (← get).arity? callee with
  | none => fail paren .notCallable
  | some expected =>
    if expected = arguments.length then
      limiting paren (callBy calling callee arguments)
    else
      fail paren (.wrongArity expected arguments.length)

end By

section Calling

variable {calling calling' : FunctionObject → List Value → Run Value} {body : Body} {paren : Token} {v : Value}
  {vs : List Value} {cls : ClassId} {id : FunctionId} {f : FunctionObject}

/-- The initializer is looked for again when the instance is there, and is the same. -/
theorem constructBy_eq : constructBy calling cls vs m = (match m.findMethod? cls "init" with
    | none => pure (.instance m.instances.size)
    | some id => do
      let bound ← bind (← functionObject id) (.instance m.instances.size)
      let _ ← calling bound vs
      pure (.instance m.instances.size) : Run Value) (m.newInstance cls).2 := by
  have hclasses : (m.newInstance cls).2.classes = m.classes := rfl
  have hmethod := findMethod?_congr hclasses cls "init"
  unfold constructBy
  rw [bind_of_ok (make_eq (·.newInstance cls) m), bind_of_ok (get_eq _), hmethod]
  rfl

theorem constructBy_of_none (h : m.findMethod? cls "init" = none) :
    constructBy calling cls vs m = .ok (.instance m.instances.size) (m.newInstance cls).2 := by
  rw [constructBy_eq, h]
  rfl

theorem constructBy_of_some (h : m.findMethod? cls "init" = some id) (hf : m.functions[id]? = some f) :
    let bound := (m.newInstance cls).2.bind f (.instance m.instances.size)
    constructBy calling cls vs m = (calling bound.1 vs >>= fun _ => pure (.instance m.instances.size)) bound.2 := by
  have hfunction := functionObject_eq (m := (m.newInstance cls).2) hf
  rw [constructBy_eq, h]
  dsimp only
  rw [bind_of_ok hfunction]
  rfl

theorem constructBy_of_dangling (h : m.findMethod? cls "init" = some id) (hf : m.functions[id]? = none) :
    constructBy calling cls vs m = .error (.stuck .danglingReference) (m.newInstance cls).2 := by
  have hdangling : functionObject id (m.newInstance cls).2 =
      .error (.stuck .danglingReference) (m.newInstance cls).2 := by
    unfold functionObject
    rw [show (m.newInstance cls).2.functions[id]? = none from hf]
  rw [constructBy_eq, h]
  dsimp only
  rw [bind_of_error hdangling]

theorem callBy_congr (harity : m.arity? v = some (vs.length : Int))
    (h : ∀ f, f.declaration.params.length = vs.length → calling f vs = calling' f vs) :
    callBy calling v vs m = callBy calling' v vs m := by
  cases v with
  | function id =>
    cases hf : m.functions[id]? with
    | none => simp [Machine.arity?, hf] at harity
    | some f =>
      have hcount : f.declaration.params.length = vs.length := by
        rw [Machine.arity?, hf] at harity
        exact Int.ofNat.inj (Option.some.inj harity)
      rw [callBy, callBy, bind_of_ok (functionObject_eq hf), bind_of_ok (functionObject_eq hf), h f hcount]
  | «class» cls =>
    rw [callBy, callBy]
    cases hid : m.findMethod? cls "init" with
    | none => rw [constructBy_of_none hid, constructBy_of_none hid]
    | some id =>
      cases hf : m.functions[id]? with
      | none => rw [constructBy_of_dangling hid hf, constructBy_of_dangling hid hf]
      | some f =>
        have hcount : f.declaration.params.length = vs.length := by
          rw [Machine.arity?, hid, Option.bind_some, hf] at harity
          exact Int.ofNat.inj (Option.some.inj harity)
        -- binding a function leaves its parameters as they are
        have hbound := h ((m.newInstance cls).2.bind f (.instance m.instances.size)).1 hcount
        rw [constructBy_of_some hid hf, constructBy_of_some hid hf, hbound]
  | native | nil | bool | number | string | «instance» => rfl

/-- It makes no difference to a checked call what a function would do with fewer or more arguments than it has
parameters. -/
theorem checkedCallBy_congr (h : ∀ f vs, f.declaration.params.length = vs.length → calling f vs = calling' f vs) :
    checkedCallBy calling = checkedCallBy calling' := by
  funext paren v vs m
  unfold checkedCallBy
  rw [bind_of_ok (get_eq m), bind_of_ok (get_eq m)]
  cases harity : m.arity? v with
  | none => rfl
  | some n =>
    dsimp only
    split
    · next hcount => exact limiting_congr (callBy_congr (hcount ▸ harity) fun f => h f vs)
    · rfl

theorem checkedCallBy_callFunction (body : Body) : checkedCallBy (callFunction body) = checkedCall body := rfl

end Calling

/-! Calls with whatever arguments -/

/-- What comes of calling a value, once it and the arguments are there. It is refused and nothing else is done, or a
function is entered with the arguments and its body runs. -/
inductive Answers (body : Body) (paren : Token) (m : Machine) :
    Value → List Value → EStateM.Result Interrupt Machine Value → Prop where
  | notCallable {v : Value} {vs : List Value} : v.isCallable = false →
      Answers body paren m v vs (.error (.failed ⟨paren, .notCallable⟩) m)
  | wrongArity {v : Value} {vs : List Value} {n : Int} : m.Takes v n → n ≠ vs.length →
      Answers body paren m v vs (.error (.failed ⟨paren, .wrongArity n vs.length⟩) m)
  | function {id : FunctionId} {f : FunctionObject} {vs : List Value} {scope : ScopeId} {m' : Machine} :
      m.functions[id]? = some f → Entered f vs m scope m' →
        Answers body paren m (.function id) vs
          (limiting paren (body scope f.declaration.body >>= result f) m')
  | initializer {cls : ClassId} {id : FunctionId} {g f : FunctionObject} {vs : List Value} {scope : ScopeId}
      {bound m' : Machine} : m.findMethod? cls "init" = some id → m.functions[id]? = some g →
        (m.newInstance cls).2.bind g (.instance m.instances.size) = (f, bound) →
          f.declaration = g.declaration → Entered f vs bound scope m' →
            Answers body paren m (.class cls) vs
              (limiting paren (do
                let _ ← body scope f.declaration.body >>= result f
                pure (.instance m.instances.size)) m')
  | noInitializer {cls : ClassId} : m.findMethod? cls "init" = none →
      Answers body paren m (.class cls) [] (.ok (.instance m.instances.size) (m.newInstance cls).2)
  | native {id : NativeId} {n : NativeObject} {vs : List Value} : m.natives[id]? = some n → n.arity = vs.length →
      Answers body paren m (.native id) vs (callNative id vs m)

variable {body : Body} {paren : Token} {v : Value} {vs : List Value}

/-- A function is refused its arguments or entered with them. -/
theorem Answers.refused_or_entered {id : FunctionId} {f : FunctionObject} {r : EStateM.Result Interrupt Machine Value}
    (h : Answers body paren m (.function id) vs r) (hf : m.functions[id]? = some f) :
    (f.declaration.params.length ≠ vs.length ∧
      r = .error (.failed ⟨paren, .wrongArity f.declaration.params.length vs.length⟩) m) ∨
    ∃ scope m', Entered f vs m scope m' ∧ r = limiting paren (body scope f.declaration.body >>= result f) m' := by
  cases h with
  | notCallable hv => cases hv
  | wrongArity hn hne =>
    cases hn with
    | function hf' =>
      cases hf.symm.trans hf'
      exact .inl ⟨fun h => hne (congrArg Int.ofNat h), rfl⟩
  | function hf' hentered =>
    cases hf.symm.trans hf'
    exact .inr ⟨_, _, hentered, rfl⟩

theorem checkedCall_of_takes {n : Int} (h : m.Takes v n) : checkedCall body paren v vs m =
    if n = vs.length then limiting paren (call body v vs) m
    else .error (.failed ⟨paren, .wrongArity n vs.length⟩) m := by
  unfold checkedCall
  rw [bind_of_ok (get_eq m), h.arity?]
  dsimp only
  split <;> rfl

/-- A native function never ends for want of room. -/
theorem limiting_callNative (id : NativeId) : limiting paren (callNative id vs) m = callNative id vs m := by
  unfold limiting callNative
  cases m.natives[id]? with
  | none => rfl
  | some n =>
    dsimp only [Option.map_some]
    cases n.rule <;> rfl

/-- A function that takes that many arguments is entered with them. -/
theorem answers_call {n : Int} (h : m.Takes v n) (hcount : n = vs.length) :
    Answers body paren m v vs (limiting paren (call body v vs) m) := by
  cases h with
  | @function id f hf =>
    have hcall : call body (.function id) vs m = (body m.scopes.size f.declaration.body >>= result f)
        (m.enter f.closure f.declaration.params vs).2 := bind_of_ok (functionObject_eq hf) _
    rw [limiting_congr hcall]
    exact .function hf (entered (Int.ofNat.inj hcount) m)
  | @initializer cls id g hid hg =>
    let f : FunctionObject := ((m.newInstance cls).2.bind g (.instance m.instances.size)).1
    let bound : Machine := ((m.newInstance cls).2.bind g (.instance m.instances.size)).2
    have hcall : call body (.class cls) vs m = (do
        let _ ← body bound.scopes.size f.declaration.body >>= result f
        pure (.instance m.instances.size) : Run Value) (bound.enter f.closure f.declaration.params vs).2 :=
      constructBy_of_some hid hg
    rw [limiting_congr hcall]
    exact .initializer hid hg rfl rfl (entered (f := f) (Int.ofNat.inj hcount) bound)
  | @noInitializer cls hid =>
    obtain rfl : vs = [] := List.eq_nil_of_length_eq_zero (Int.ofNat.inj hcount.symm)
    have hcall : call body (.class cls) [] m = (pure (.instance m.instances.size) : Run Value) (m.newInstance cls).2 :=
      constructBy_of_none hid
    rw [limiting_congr hcall]
    exact .noInitializer hid
  | native hn =>
    rw [call, limiting_callNative]
    exact .native hn hcount

/-- What comes of a checked call, in any machine in which the value is provided for. -/
theorem answers_checkedCall (h : m.Provides v) : Answers body paren m v vs (checkedCall body paren v vs m) := by
  cases hv : v.isCallable with
  | false =>
    have hrefused : checkedCall body paren v vs m = .error (.failed ⟨paren, .notCallable⟩) m := by
      unfold checkedCall
      rw [bind_of_ok (get_eq m), arity?_of_not_callable hv]
      rfl
    rw [hrefused]
    exact .notCallable hv
  | true =>
    obtain ⟨n, hn⟩ := h.takes hv
    rw [checkedCall_of_takes hn]
    split
    · next hcount => exact answers_call hn hcount
    · next hcount => exact .wrongArity hn hcount

/-- What comes of the evaluation of a call. The callee and then the arguments, from left to right, are evaluated as long
as none of them fails; then comes what the call itself does, in the machine that they leave behind. -/
inductive CallEnds (rounds depth : Nat) (callee : Expr) (paren : Token) (es : List Expr) (m : Machine) :
    EStateM.Result Interrupt Machine Value → Prop where
  | callee {i : Interrupt} {m₁ : Machine} : evaluate rounds depth callee m = .error i m₁ →
      CallEnds rounds depth callee paren es m (.error i m₁)
  | argument {v : Value} {m₁ m₂ m₃ : Machine} {earlier later : List Expr} {e : Expr} {vs : List Value}
      {i : Interrupt} : evaluate rounds depth callee m = .ok v m₁ → es = earlier ++ e :: later →
        InTurn (evaluate rounds depth) m₁ earlier vs m₂ → evaluate rounds depth e m₂ = .error i m₃ →
          CallEnds rounds depth callee paren es m (.error i m₃)
  | answered {v : Value} {m₁ m₂ : Machine} {vs : List Value} {r : EStateM.Result Interrupt Machine Value} :
      evaluate rounds depth callee m = .ok v m₁ → InTurn (evaluate rounds depth) m₁ es vs m₂ →
        Answers (block (execute rounds depth)) paren m₂ v vs r → CallEnds rounds depth callee paren es m r

theorem InTurn.mapM {run : α → Run β} {as : List α} {bs : List β} (h : InTurn run m as bs m') :
    as.mapM run m = .ok bs m' := by
  induction h with
  | nil => rfl
  | cons hfirst _ ih =>
    rw [List.mapM_cons, bind_of_ok hfirst, bind_of_ok ih]
    rfl

/-- If the callee and the arguments have values, nothing else can come of a call than what it does itself. -/
theorem CallEnds.answers {rounds depth : Nat} {callee : Expr} {es : List Expr}
    {r : EStateM.Result Interrupt Machine Value} (h : CallEnds rounds depth callee paren es m r)
    (hc : evaluate rounds depth callee m = .ok v m₁) (hargs : InTurn (evaluate rounds depth) m₁ es vs m₂) :
    Answers (block (execute rounds depth)) paren m₂ v vs r := by
  cases h with
  | callee hfails => exact nomatch hc.symm.trans hfails
  | @argument _ _ m₂' _ earlier later e _ i hc' hes hearlier hfails =>
    cases hc.symm.trans hc'
    have hall := hargs.mapM
    rw [hes, List.mapM_append, bind_of_ok hearlier.mapM, List.mapM_cons] at hall
    obtain ⟨rest, m₄, hrest, -⟩ := bind_eq_ok hall
    obtain ⟨_, m₅, hok, -⟩ := bind_eq_ok hrest
    exact nomatch hok.symm.trans hfails
  | answered hc' hargs' hanswers =>
    cases hc.symm.trans hc'
    cases hargs.mapM.symm.trans hargs'.mapM
    exact hanswers

theorem callEnds_evaluate {P : Token → Prop} {rounds depth : Nat} {callee : Expr} {es : List Expr} (hm : m.Sound P)
    (he : (Expr.call callee paren es).Formed P) :
    CallEnds rounds depth callee paren es m (evaluate rounds (depth + 1) (.call callee paren es) m) := by
  cases he with
  | call _ hcallee hes =>
    have hev := (evaluates_executes P rounds depth).1
    rw [evaluate]
    cases hc : evaluate rounds depth callee m with
    | error i m₁ =>
      rw [bind_of_error hc]
      exact .callee hc
    | ok v m₁ =>
      obtain ⟨h₁, hv⟩ := (hev callee hcallee m hm).ok hc
      have hm₁ : m₁.Sound P := h₁.steps.sound hm
      rw [bind_of_ok hc]
      cases hargs : es.mapM (evaluate rounds depth) m₁ with
      | error i m₂ =>
        obtain ⟨earlier, e, later, vs, m₂, hes, hearlier, hfails⟩ := inTurn_of_mapM_error es hargs
        rw [bind_of_error hargs]
        exact .argument hc hes hearlier hfails
      | ok vs m₂ =>
        obtain ⟨h₂, -⟩ := (keeps_mapM hev es hes m₁ hm₁).ok hargs
        have hknown : m₂.Known v := hv.mono h₂.grows
        rw [bind_of_ok hargs]
        exact .answered hc (inTurn_of_mapM es hargs) (answers_checkedCall (hknown.provides (h₂.steps.sound hm₁)))

end Run
end Lox
