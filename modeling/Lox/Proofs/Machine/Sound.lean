import Lox.Proofs.Machine.Grows
import Lox.Proofs.Tree.Formed
import Mathlib.Logic.Relation

/-! The steps of a machine and the invariant they keep. A run of a program is made of these steps, so what
they keep holds in every state of every run. `P` is what is known of the tokens of the programs. If no name is
spelled `this`, the scopes that own `this` are those that `bind` made, and they stay as they were made. -/

namespace Lox

/-- Whether no name is spelled `this`. -/
def ThisReserved (P : Token → Prop) : Prop := ¬ Names P "this"

namespace Machine

/-- Whether a value refers to objects that exist, and not to an initializer that is bound to no instance. -/
def Known (m : Machine) : Value → Prop
  | .function id =>
    ∃ f, m.functions[id]? = some f ∧ (f.isInitializer → (m.scopes.bindings f.closure).owns "this")
  | .class id => ∃ c, m.classes[id]? = some c
  | .instance id => ∃ o, m.instances[id]? = some o
  | .native id => ∃ n, m.natives[id]? = some n
  | .nil | .bool _ | .number _ | .string _ => True

def KnownAll (m : Machine) (b : Bindings Value) : Prop := ∀ n v, b.get? n = some v → m.Known v

/-- Whether a function can be entered. -/
structure SoundFunction (P : Token → Prop) (m : Machine) (f : FunctionObject) : Prop where
  closure : f.closure < m.scopes.size
  declaration : f.declaration.Formed P

/-- Whether the methods of a class exist. The one named `init` is the initializer. -/
structure SoundClass (m : Machine) (c : ClassObject) : Prop where
  superclass : c.superclass = none
  methods : ∀ n id, c.methods.get? n = some id →
    ∃ f, m.functions[id]? = some f ∧ f.isInitializer = decide (n = "init")

structure SoundInstance (m : Machine) (o : InstanceObject) : Prop where
  cls : ∃ c, m.classes[o.cls]? = some c
  fields : m.KnownAll o.fields

structure Sound (P : Token → Prop) (m : Machine) : Prop where
  parents : ∀ s < m.scopes.size, (s = globals ∧ m.scopes.parent? s = none) ∨
    ∃ p < s, m.scopes.parent? s = some p
  current : m.current < m.scopes.size
  bindings : ∀ s, m.KnownAll (m.scopes.bindings s)
  functions : ∀ (id : FunctionId) f, m.functions[id]? = some f → m.SoundFunction P f
  classes : ∀ (id : ClassId) c, m.classes[id]? = some c → m.SoundClass c
  instances : ∀ (id : InstanceId) o, m.instances[id]? = some o → m.SoundInstance o
  receivers : ThisReserved P → ∀ s, (m.scopes.bindings s).owns "this" →
    ∃ o, m.scopes.bindings s = [("this", .instance o)]
  outside : ThisReserved P → ¬ (m.scopes.bindings m.current).owns "this"

/-- What a machine can do, and when. A definition never goes into a scope that owns `this`. -/
inductive Step (P : Token → Prop) (m : Machine) : Machine → Prop where
  | define {scope : ScopeId} {name : String} {v : Value} : scope < m.scopes.size → Names P name →
      m.Known v → (ThisReserved P → ¬ (m.scopes.bindings scope).owns "this") →
        Step P m (m.define scope name v)
  | newScope {parent : ScopeId} : parent < m.scopes.size → Step P m (m.newScope parent).2
  | bind {f : FunctionObject} {o : InstanceId} : m.SoundFunction P f → m.Known (.instance o) →
      Step P m (m.bind f (.instance o)).2
  | newFunction {f : FunctionObject} : m.SoundFunction P f → Step P m (m.newFunction f).2
  | newClass {c : ClassObject} : m.SoundClass c → Step P m (m.newClass c).2
  | newInstance {cls : ClassId} : m.Known (.class cls) → Step P m (m.newInstance cls).2
  | setField {o : InstanceId} {name : String} {v : Value} : m.Known v → Step P m (m.setField o name v)
  | output (text : String) : Step P m { m with output := text }
  | tick : Step P m { m with readings := m.readings + 1 }
  | move {scope : ScopeId} : scope < m.scopes.size →
      (ThisReserved P → ¬ (m.scopes.bindings scope).owns "this") → Step P m { m with current := scope }

/-- Any number of steps. -/
def Steps (P : Token → Prop) : Machine → Machine → Prop := Relation.ReflTransGen (Step P)

/-- The states that runs from a fresh machine can come to. -/
def Reachable (P : Token → Prop) (m : Machine) : Prop := ∃ clock, Steps P (fresh clock) m

variable {P : Token → Prop} {m m' m'' : Machine}

theorem Step.grows (h : Step P m m') : m.Grows m' := by
  cases h with
  | define => exact grows_define ..
  | newScope => exact grows_newScope ..
  | bind => exact grows_bind ..
  | newFunction => exact grows_newFunction ..
  | newClass => exact grows_newClass ..
  | newInstance => exact grows_newInstance ..
  | setField => exact grows_setField ..
  | output | tick | move => exact { Grows.refl m with }

theorem Steps.grows (h : Steps P m m') : m.Grows m' := by
  induction h with
  | refl => exact Grows.refl m
  | tail _ hstep ih => exact ih.trans hstep.grows

/-! What is known of values and objects stays known. -/

theorem Known.mono {v : Value} (h : m.Known v) (hg : m.Grows m') : m'.Known v := by
  cases v with
  | function id =>
    obtain ⟨f, hf, hinit⟩ := h
    exact ⟨f, hg.functions id f hf, fun hi => hg.owns _ _ (hinit hi)⟩
  | «class» id =>
    obtain ⟨c, hc⟩ := h
    exact ⟨c, hg.classes id c hc⟩
  | «instance» id =>
    obtain ⟨o, ho⟩ := h
    obtain ⟨o', ho', -⟩ := hg.instances id o ho
    exact ⟨o', ho'⟩
  | native id =>
    obtain ⟨n, hn⟩ := h
    exact ⟨n, hg.natives id n hn⟩
  | nil | bool | number | string => trivial

theorem KnownAll.mono {b : Bindings Value} (h : m.KnownAll b) (hg : m.Grows m') : m'.KnownAll b :=
  fun n v hv => (h n v hv).mono hg

theorem knownAll_nil (m : Machine) : m.KnownAll [] := nofun

theorem KnownAll.set {b : Bindings Value} {name : String} {v : Value} (h : m.KnownAll b) (hv : m.Known v) :
    m.KnownAll (b.set name v) := by
  intro n w hw
  rw [Bindings.get?_set] at hw
  split at hw
  · exact Option.some.inj hw ▸ hv
  · exact h n w hw

theorem SoundFunction.mono {f : FunctionObject} (h : m.SoundFunction P f) (hg : m.Grows m') :
    m'.SoundFunction P f := ⟨Nat.lt_of_lt_of_le h.closure hg.scopes, h.declaration⟩

theorem SoundClass.mono {c : ClassObject} (h : m.SoundClass c) (hg : m.Grows m') : m'.SoundClass c := by
  refine ⟨h.superclass, fun n id hn => ?_⟩
  obtain ⟨f, hf, hi⟩ := h.methods n id hn
  exact ⟨f, hg.functions id f hf, hi⟩

theorem SoundInstance.mono {o : InstanceObject} (h : m.SoundInstance o) (hg : m.Grows m') :
    m'.SoundInstance o := by
  obtain ⟨c, hc⟩ := h.cls
  exact ⟨⟨c, hg.classes _ c hc⟩, h.fields.mono hg⟩

/-! The scopes after a step -/

theorem size_bind (m : Machine) (f : FunctionObject) (receiver : Value) :
    (m.bind f receiver).2.scopes.size = m.scopes.size + 1 := by
  show ((m.scopes.new (some f.closure)).2.define m.scopes.size "this" receiver).size = _
  rw [Scopes.size_define, Scopes.size_new]

theorem parent?_bind (m : Machine) (f : FunctionObject) (receiver : Value) (s : ScopeId) :
    (m.bind f receiver).2.scopes.parent? s =
      if s = m.scopes.size then some f.closure else m.scopes.parent? s := by
  show ((m.scopes.new (some f.closure)).2.define m.scopes.size "this" receiver).parent? s = _
  rw [Scopes.parent?_define, Scopes.parent?_new]

/-- The scope that `bind` makes owns `this` and nothing else. -/
theorem bindings_bind (m : Machine) (f : FunctionObject) (receiver : Value) (s : ScopeId) :
    (m.bind f receiver).2.scopes.bindings s =
      if s = m.scopes.size then [("this", receiver)] else m.scopes.bindings s := by
  show ((m.scopes.new (some f.closure)).2.define m.scopes.size "this" receiver).bindings s = _
  have hsize : m.scopes.size < (m.scopes.new (some f.closure)).2.table.size := by
    show _ < (m.scopes.new (some f.closure)).2.size
    rw [Scopes.size_new]
    exact Nat.lt_succ_self _
  rw [Scopes.bindings_define, Scopes.bindings_new]
  by_cases hs : s = m.scopes.size
  · subst hs
    rw [if_pos ⟨rfl, hsize⟩, if_pos rfl, Scopes.bindings_of_size_le _ (Nat.le_refl _)]
    rfl
  · rw [if_neg fun h => hs h.1.symm, if_neg hs]

/-- If no name is spelled `this`, a definition outside the scopes that own it gives it to none. -/
theorem owns_this_define {scope s : ScopeId} {name : String} {v : Value} (hscope : scope < m.scopes.size)
    (hname : Names P name) (hp : ThisReserved P) :
    ((m.define scope name v).scopes.bindings s).owns "this" ↔ (m.scopes.bindings s).owns "this" := by
  refine (m.scopes.owns_define scope s name "this" v hscope).trans ⟨fun h => ?_, .inl⟩
  exact h.resolve_right fun he => hp (he.2 ▸ hname)

/-! One law for each step that changes what the invariant speaks of -/

theorem Sound.define (h : m.Sound P) {scope : ScopeId} {name : String} {v : Value}
    (hscope : scope < m.scopes.size) (hname : Names P name) (hv : m.Known v)
    (hthis : ThisReserved P → ¬ (m.scopes.bindings scope).owns "this") :
    (m.define scope name v).Sound P where
  parents s hs := by
    have hs : s < m.scopes.size := by simpa [Machine.define] using hs
    simpa only [Machine.define, Scopes.parent?_define] using h.parents s hs
  current := by
    show _ < (m.scopes.define scope name v).size
    rw [Scopes.size_define]
    exact h.current
  bindings s n w hw := by
    refine Known.mono (m := m) ?_ (grows_define m scope name v)
    rw [show ((m.define scope name v).scopes.bindings s).get? n = _ from
      m.scopes.get?_define scope s name n v hscope] at hw
    split at hw
    · exact Option.some.inj hw ▸ hv
    · exact h.bindings s n w hw
  functions id f hf := (h.functions id f hf).mono (grows_define m scope name v)
  classes id c hc := (h.classes id c hc).mono (grows_define m scope name v)
  instances id o ho := (h.instances id o ho).mono (grows_define m scope name v)
  receivers hp s hs := by
    have hs : (m.scopes.bindings s).owns "this" := (owns_this_define hscope hname hp).1 hs
    have hne : ¬ (scope = s ∧ s < m.scopes.table.size) := fun he => hthis hp (he.1 ▸ hs)
    show ∃ o, (m.scopes.define scope name v).bindings s = _
    rw [Scopes.bindings_define, if_neg hne]
    exact h.receivers hp s hs
  outside hp ho := h.outside hp ((owns_this_define hscope hname hp).1 ho)

theorem Sound.newScope (h : m.Sound P) {parent : ScopeId} (hparent : parent < m.scopes.size) :
    (m.newScope parent).2.Sound P := by
  have hg := grows_newScope m parent
  have hsize : (m.newScope parent).2.scopes.size = m.scopes.size + 1 := Scopes.size_new ..
  have hbindings (s : ScopeId) : (m.newScope parent).2.scopes.bindings s = m.scopes.bindings s :=
    Scopes.bindings_new ..
  refine ⟨fun s hs => ?_, ?_, fun s => ?_, fun id f hf => (h.functions id f hf).mono hg,
    fun id c hc => (h.classes id c hc).mono hg, fun id o ho => (h.instances id o ho).mono hg,
    fun hp s hs => ?_, fun hp ho => ?_⟩
  · rw [show (m.newScope parent).2.scopes.parent? s = _ from Scopes.parent?_new ..]
    by_cases he : s = m.scopes.size
    · rw [if_pos he]
      exact .inr ⟨parent, he ▸ hparent, rfl⟩
    · rw [if_neg he]
      rw [hsize] at hs
      exact h.parents s (by omega)
  · rw [hsize]
    exact Nat.lt_succ_of_lt h.current
  · rw [hbindings]
    exact (h.bindings s).mono hg
  · rw [hbindings] at hs ⊢
    exact h.receivers hp s hs
  · rw [hbindings] at ho
    exact h.outside hp ho

theorem Sound.bind (h : m.Sound P) {f : FunctionObject} {o : InstanceId} (hf : m.SoundFunction P f)
    (ho : m.Known (.instance o)) : (m.bind f (.instance o)).2.Sound P := by
  have hg := grows_bind m f (.instance o)
  refine ⟨fun s hs => ?_, ?_, fun s => ?_, fun id g hg' => (h.functions id g hg').mono hg,
    fun id c hc => (h.classes id c hc).mono hg, fun id i hi => (h.instances id i hi).mono hg,
    fun hp s hs => ?_, fun hp hs => ?_⟩
  · rw [parent?_bind]
    by_cases he : s = m.scopes.size
    · rw [if_pos he]
      exact .inr ⟨f.closure, he ▸ hf.closure, rfl⟩
    · rw [if_neg he]
      rw [size_bind] at hs
      exact h.parents s (by omega)
  · rw [size_bind]
    exact Nat.lt_succ_of_lt h.current
  · rw [bindings_bind]
    split
    · have hset : m.KnownAll (Bindings.set [] "this" (.instance o)) := m.knownAll_nil.set ho
      exact hset.mono hg
    · exact (h.bindings s).mono hg
  · rw [bindings_bind] at hs ⊢
    by_cases he : s = m.scopes.size
    · rw [if_pos he]
      exact ⟨o, rfl⟩
    · rw [if_neg he] at hs ⊢
      exact h.receivers hp s hs
  · rw [bindings_bind, if_neg (show (m.bind f _).2.current ≠ _ from Nat.ne_of_lt h.current)] at hs
    exact h.outside hp hs

theorem getElem?_push_eq_some {α : Type} {xs : Array α} {i : Nat} {x y : α} (h : (xs.push x)[i]? = some y) :
    y = x ∨ xs[i]? = some y := by
  rw [Array.getElem?_push] at h
  split at h
  · exact .inl (Option.some.inj h).symm
  · exact .inr h

theorem Sound.newFunction (h : m.Sound P) {f : FunctionObject} (hf : m.SoundFunction P f) :
    (m.newFunction f).2.Sound P where
  parents := h.parents
  current := h.current
  bindings s := (h.bindings s).mono (grows_newFunction m f)
  functions id g hg := (getElem?_push_eq_some hg).elim (fun he => he ▸ hf.mono (grows_newFunction m f))
    fun hg => (h.functions id g hg).mono (grows_newFunction m f)
  classes id c hc := (h.classes id c hc).mono (grows_newFunction m f)
  instances id o ho := (h.instances id o ho).mono (grows_newFunction m f)
  receivers := h.receivers
  outside := h.outside

theorem Sound.newClass (h : m.Sound P) {c : ClassObject} (hc : m.SoundClass c) :
    (m.newClass c).2.Sound P where
  parents := h.parents
  current := h.current
  bindings s := (h.bindings s).mono (grows_newClass m c)
  functions id f hf := (h.functions id f hf).mono (grows_newClass m c)
  classes id d hd := (getElem?_push_eq_some hd).elim (fun he => he ▸ hc.mono (grows_newClass m c))
    fun hd => (h.classes id d hd).mono (grows_newClass m c)
  instances id o ho := (h.instances id o ho).mono (grows_newClass m c)
  receivers := h.receivers
  outside := h.outside

theorem Sound.newInstance (h : m.Sound P) {cls : ClassId} (hcls : m.Known (.class cls)) :
    (m.newInstance cls).2.Sound P where
  parents := h.parents
  current := h.current
  bindings s := (h.bindings s).mono (grows_newInstance m cls)
  functions id f hf := (h.functions id f hf).mono (grows_newInstance m cls)
  classes id c hc := (h.classes id c hc).mono (grows_newInstance m cls)
  instances id o ho := (getElem?_push_eq_some ho).elim (fun he => he ▸ ⟨hcls, knownAll_nil _⟩)
    fun ho => (h.instances id o ho).mono (grows_newInstance m cls)
  receivers := h.receivers
  outside := h.outside

theorem Sound.setField (h : m.Sound P) {object : InstanceId} {name : String} {v : Value} (hv : m.Known v) :
    (m.setField object name v).Sound P where
  parents := h.parents
  current := h.current
  bindings s := (h.bindings s).mono (grows_setField m object name v)
  functions id f hf := (h.functions id f hf).mono (grows_setField m object name v)
  classes id c hc := (h.classes id c hc).mono (grows_setField m object name v)
  instances id o ho := by
    have hg := grows_setField m object name v
    simp only [Machine.setField, Array.getElem?_modify] at ho
    split at ho
    · obtain ⟨o', ho', rfl⟩ := Option.map_eq_some_iff.1 ho
      have hsound := h.instances id o' ho'
      exact ⟨(hsound.mono hg).cls, (hsound.fields.set hv).mono hg⟩
    · exact (h.instances id o ho).mono hg
  receivers := h.receivers
  outside := h.outside

/-- What the machine writes, the clock and the place names are looked up from are no part of the store. -/
theorem Sound.ofStore (h : m.Sound P) (hg : m.Grows m') (hscopes : m'.scopes = m.scopes)
    (hfunctions : m'.functions = m.functions) (hclasses : m'.classes = m.classes)
    (hinstances : m'.instances = m.instances) (hcurrent : m'.current < m.scopes.size)
    (hthis : ThisReserved P → ¬ (m.scopes.bindings m'.current).owns "this") : m'.Sound P where
  parents := hscopes ▸ h.parents
  current := hscopes ▸ hcurrent
  bindings s := hscopes ▸ (h.bindings s).mono hg
  functions id f hf := (h.functions id f (hfunctions ▸ hf)).mono hg
  classes id c hc := (h.classes id c (hclasses ▸ hc)).mono hg
  instances id o ho := (h.instances id o (hinstances ▸ ho)).mono hg
  receivers := hscopes ▸ h.receivers
  outside := hscopes ▸ hthis

/-- Every step keeps the invariant. -/
theorem Step.sound (hstep : Step P m m') (h : m.Sound P) : m'.Sound P := by
  cases hstep with
  | define hscope hname hv hthis => exact h.define hscope hname hv hthis
  | newScope hparent => exact h.newScope hparent
  | bind hf ho => exact h.bind hf ho
  | newFunction hf => exact h.newFunction hf
  | newClass hc => exact h.newClass hc
  | newInstance hcls => exact h.newInstance hcls
  | setField hv => exact h.setField hv
  | output | tick => exact h.ofStore { Grows.refl m with } rfl rfl rfl rfl h.current h.outside
  | move hscope hthis => exact h.ofStore { Grows.refl m with } rfl rfl rfl rfl hscope hthis

theorem Steps.sound (hsteps : Steps P m m') (h : m.Sound P) : m'.Sound P := by
  induction hsteps with
  | refl => exact h
  | tail _ hstep ih => exact hstep.sound ih

theorem bindings_fresh (clock : Nat → Float) (s : ScopeId) :
    (fresh clock).scopes.bindings s = if s = globals then [("clock", Value.native 0)] else [] := by
  show ((Scopes.empty.new none).2.define globals "clock" (Value.native 0)).bindings s = _
  rw [Scopes.bindings_define, Scopes.bindings_new, Scopes.bindings_of_size_le _ (Nat.zero_le s)]
  by_cases hs : s = globals
  · subst hs
    rfl
  · rw [if_neg hs, if_neg fun h => hs h.1.symm]

theorem sound_fresh (P : Token → Prop) (clock : Nat → Float) : (fresh clock).Sound P where
  parents s hs := by
    obtain rfl : s = globals := Nat.lt_one_iff.1 hs
    exact .inl ⟨rfl, rfl⟩
  current := Nat.zero_lt_one
  bindings s := by
    rw [bindings_fresh]
    split
    · exact (knownAll_nil _).set ⟨_, rfl⟩
    · exact knownAll_nil _
  functions _ _ h := nomatch h
  classes _ _ h := nomatch h
  instances _ _ h := nomatch h
  receivers _ s hs := by
    rw [bindings_fresh] at hs
    split at hs <;> cases hs
  outside _ hs := by
    rw [bindings_fresh] at hs
    cases hs

theorem Reachable.sound (h : m.Reachable P) : m.Sound P := by
  obtain ⟨clock, hsteps⟩ := h
  exact hsteps.sound (sound_fresh P clock)

end Machine
end Lox
