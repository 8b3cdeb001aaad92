import Lox.Proofs.Machine.Links
import Mathlib.Data.List.Find

/-! All that can be done to a machine, with a record of the properties that are written. Nothing need be known of the
values. What an instance holds is told by the record, methods are looked for along the superclasses, and what `this`
is in a scope is settled when the scope is made. -/

namespace Lox

/-- A value that is given to a property of an instance. -/
structure Write where
  object : InstanceId
  name : String
  value : Value

/-- What a property was given last, where the latest writes stand first. -/
def lastWritten (writes : List Write) (object : InstanceId) (name : String) : Option Value :=
  (writes.find? fun w => w.object = object ∧ w.name = name).map Write.value

namespace Machine

variable {N : String → Prop} {D : Declaration → Prop} {m m' m'' : Machine} {ws us : List Write} {s : ScopeId}

/-- One thing that is done to a machine, and what it writes to properties. `N` holds of the names that come to be bound,
`D` of the declarations of functions. The superclass of a new class and its methods exist. -/
inductive Change (N : String → Prop) (D : Declaration → Prop) (m : Machine) : List Write → Machine → Prop where
  | define (scope : ScopeId) {name : String} (v : Value) : N name → Change N D m [] (m.define scope name v)
  | newScope (parent : ScopeId) : Change N D m [] (m.newScope parent).2
  | bind (f : FunctionObject) (receiver : Value) : Change N D m [] (m.bind f receiver).2
  | newFunction {f : FunctionObject} : D f.declaration → Change N D m [] (m.newFunction f).2
  | newClass {c : ClassObject} : (∀ super ∈ c.superclass, super < m.classes.size) →
      (∀ n id, c.methods.get? n = some id → id < m.functions.size) → Change N D m [] (m.newClass c).2
  | newInstance (cls : ClassId) : Change N D m [] (m.newInstance cls).2
  | setField {o : InstanceId} (name : String) (v : Value) : o < m.instances.size →
      Change N D m [⟨o, name, v⟩] (m.setField o name v)
  | output (text : String) : Change N D m [] { m with output := text }
  | tick : Change N D m [] { m with readings := m.readings + 1 }
  | move (scope : ScopeId) : Change N D m [] { m with current := scope }

/-- Any number of things, and all that they write. -/
inductive Changes (N : String → Prop) (D : Declaration → Prop) (m : Machine) : List Write → Machine → Prop where
  | refl : Changes N D m [] m
  | tail {ws us : List Write} {m' m'' : Machine} : Changes N D m ws m' → Change N D m' us m'' →
      Changes N D m (us ++ ws) m''

/-- Whether all functions are declared as `D` says. -/
def Coded (D : Declaration → Prop) (m : Machine) : Prop :=
  ∀ (id : FunctionId) f, m.functions[id]? = some f → D f.declaration

/-- What holds of a machine on which all that was written is known. -/
structure Recorded (D : Declaration → Prop) (ws : List Write) (m : Machine) : Prop where
  functions : m.Coded D
  superclasses : ∀ (id : ClassId) c, m.classes[id]? = some c → ∀ super ∈ c.superclass, super < id
  methods : ∀ (id : ClassId) c, m.classes[id]? = some c →
    ∀ n f, c.methods.get? n = some f → f < m.functions.size
  objects : ∀ w ∈ ws, w.object < m.instances.size
  fields : ∀ (o : InstanceId) i, m.instances[o]? = some i → ∀ n, i.fields.get? n = lastWritten ws o n

theorem Change.single (h : Change N D m ws m') : Changes N D m ws m' := by
  have hone := Changes.refl.tail h
  rwa [List.append_nil] at hone

theorem Changes.trans (h : Changes N D m ws m') (h' : Changes N D m' us m'') : Changes N D m (us ++ ws) m'' := by
  induction h' with
  | refl => exact h
  | tail _ hstep ih =>
    rw [List.append_assoc]
    exact ih.tail hstep

theorem Change.grows (h : Change N D m ws m') : m.Grows m' := by
  cases h with
  | define => exact grows_define ..
  | newScope => exact grows_newScope ..
  | bind => exact grows_bind ..
  | newFunction => exact grows_newFunction ..
  | newClass => exact grows_newClass ..
  | newInstance => exact grows_newInstance ..
  | setField => exact grows_setField ..
  | output | tick | move => exact { Grows.refl m with }

theorem Changes.grows (h : Changes N D m ws m') : m.Grows m' := by
  induction h with
  | refl => exact .refl m
  | tail _ hstep ih => exact ih.trans hstep.grows

/-! Steps -/

theorem setField_of_size_le {o : InstanceId} (h : m.instances.size ≤ o) (name : String) (v : Value) : m.setField o name v = m := by
  have hinstances : m.instances.modify o (fun i => { i with fields := i.fields.set name v }) = m.instances := by
    refine Array.ext_getElem? fun i => ?_
    rw [Array.getElem?_modify]
    split
    · next heq =>
      rw [← heq, Array.getElem?_eq_none h]
      rfl
    · rfl
  unfold setField
  rw [hinstances]

/-- A step is a change, or writes to an instance that does not exist and changes nothing. -/
theorem Step.changes {P : Token → Prop} (h : Step P m m') : ∃ us, Changes (Names P) (Declaration.Formed P) m us m' := by
  cases h with
  | @define scope _ v _ hname => exact ⟨_, (Change.define scope v hname).single⟩
  | newScope => exact ⟨_, (Change.newScope _).single⟩
  | @bind f o => exact ⟨_, (Change.bind f (.instance o)).single⟩
  | newFunction hf => exact ⟨_, (Change.newFunction hf.declaration).single⟩
  | newClass hc =>
    refine ⟨_, (Change.newClass (fun super hsuper => ?_) fun n id hid => ?_).single⟩
    · rw [hc.superclass] at hsuper
      cases hsuper
    · obtain ⟨f, hf, -⟩ := hc.methods n id hid
      exact (Array.getElem?_eq_some_iff.1 hf).1
  | newInstance => exact ⟨_, (Change.newInstance _).single⟩
  | @setField o name v =>
    by_cases ho : o < m.instances.size
    · exact ⟨_, (Change.setField name v ho).single⟩
    · rw [setField_of_size_le (Nat.le_of_not_lt ho)]
      exact ⟨[], .refl⟩
  | output text => exact ⟨_, (Change.output text).single⟩
  | tick => exact ⟨_, Change.tick.single⟩
  | move => exact ⟨_, (Change.move _).single⟩

theorem Steps.changes {P : Token → Prop} (h : Steps P m m') :
    ∃ us, Changes (Names P) (Declaration.Formed P) m us m' := by
  induction h with
  | refl => exact ⟨[], .refl⟩
  | tail _ hstep ih =>
    obtain ⟨us, hus⟩ := ih
    obtain ⟨us', hus'⟩ := hstep.changes
    exact ⟨us' ++ us, hus.trans hus'⟩

/-! The record -/

theorem lastWritten_cons (w : Write) (ws : List Write) (o : InstanceId) (n : String) :
    lastWritten (w :: ws) o n = if w.object = o ∧ w.name = n then some w.value else lastWritten ws o n := by
  unfold lastWritten
  rw [List.find?_cons]
  by_cases h : w.object = o ∧ w.name = n
  · rw [if_pos h, decide_eq_true h]
    rfl
  · rw [if_neg h, decide_eq_false h]

/-- What does not exist yet has not been written to. -/
theorem Recorded.lastWritten_eq_none (h : m.Recorded D ws) (n : String) :
    lastWritten ws m.instances.size n = none := by
  unfold lastWritten
  rw [List.find?_eq_none.2 fun w hw hobject => ?_]
  · rfl
  · have hlt := h.objects w hw
    have heq : w.object = m.instances.size := (of_decide_eq_true hobject).1
    exact Nat.lt_irrefl _ (heq ▸ hlt)

/-- What does not touch functions, classes or instances. -/
theorem Recorded.aside (h : m.Recorded D ws) (hfunctions : m'.functions = m.functions)
    (hclasses : m'.classes = m.classes) (hinstances : m'.instances = m.instances) : m'.Recorded D ws where
  functions id f hf := h.functions id f (hfunctions ▸ hf)
  superclasses := hclasses ▸ h.superclasses
  methods := hclasses ▸ hfunctions ▸ h.methods
  objects := hinstances ▸ h.objects
  fields := hinstances ▸ h.fields

theorem Coded.newFunction (h : m.Coded D) {f : FunctionObject} (hf : D f.declaration) :
    (m.newFunction f).2.Coded D :=
  fun id g hg => (getElem?_push_eq_some hg).elim (fun heq => heq ▸ hf) (h id g)

theorem Recorded.newFunction (h : m.Recorded D ws) {f : FunctionObject} (hf : D f.declaration) :
    (m.newFunction f).2.Recorded D ws where
  functions := h.functions.newFunction hf
  superclasses := h.superclasses
  methods id c hc n g hg := by
    show g < (m.functions.push f).size
    rw [Array.size_push]
    exact Nat.lt_succ_of_lt (h.methods id c hc n g hg)
  objects := h.objects
  fields := h.fields

theorem Recorded.newClass (h : m.Recorded D ws) {c : ClassObject} (hsuper : ∀ super ∈ c.superclass, super < m.classes.size)
    (hmethods : ∀ n id, c.methods.get? n = some id → id < m.functions.size) : (m.newClass c).2.Recorded D ws where
  functions := h.functions
  superclasses id d hd := by
    simp only [Machine.newClass, Array.getElem?_push] at hd
    split at hd
    · next heq =>
      cases hd
      exact heq ▸ hsuper
    · exact h.superclasses id d hd
  methods id d hd := (getElem?_push_eq_some hd).elim (fun heq => heq ▸ hmethods) (h.methods id d)
  objects := h.objects
  fields := h.fields

theorem Recorded.newInstance (h : m.Recorded D ws) (cls : ClassId) : (m.newInstance cls).2.Recorded D ws where
  functions := h.functions
  superclasses := h.superclasses
  methods := h.methods
  objects w hw := by
    show w.object < (m.instances.push _).size
    rw [Array.size_push]
    exact Nat.lt_succ_of_lt (h.objects w hw)
  fields o i hi n := by
    simp only [Machine.newInstance, Array.getElem?_push] at hi
    split at hi
    · next heq =>
      cases hi
      rw [heq, h.lastWritten_eq_none n]
      rfl
    · exact h.fields o i hi n

theorem Recorded.setField (h : m.Recorded D ws) {o : InstanceId} (ho : o < m.instances.size) (name : String)
    (v : Value) : (m.setField o name v).Recorded D (⟨o, name, v⟩ :: ws) where
  functions := h.functions
  superclasses := h.superclasses
  methods := h.methods
  objects w hw := by
    show w.object < (m.instances.modify o _).size
    rw [Array.size_modify]
    rcases List.mem_cons.1 hw with rfl | hw
    · exact ho
    · exact h.objects w hw
  fields o' i hi n := by
    rw [lastWritten_cons]
    simp only [Machine.setField, Array.getElem?_modify] at hi
    split at hi
    · next heq =>
      subst heq
      obtain ⟨i', hi', rfl⟩ := Option.map_eq_some_iff.1 hi
      rw [Bindings.get?_set, h.fields o i' hi' n]
      exact if_congr (and_iff_right rfl).symm rfl rfl
    · next hne =>
      rw [if_neg fun heq => hne heq.1]
      exact h.fields o' i hi n

theorem Change.recorded (hstep : Change N D m us m') (h : m.Recorded D ws) : m'.Recorded D (us ++ ws) := by
  cases hstep with
  | newFunction hf => exact h.newFunction hf
  | newClass hsuper hmethods => exact h.newClass hsuper hmethods
  | newInstance cls => exact h.newInstance cls
  | setField name v ho => exact h.setField ho name v
  | define | newScope | bind | output | tick | move => exact h.aside rfl rfl rfl

theorem Changes.recorded (hsteps : Changes N D m us m') (h : m.Recorded D ws) : m'.Recorded D (us ++ ws) := by
  induction hsteps with
  | refl => exact h
  | tail _ hstep ih =>
    rw [List.append_assoc]
    exact hstep.recorded ih

theorem Changes.coded (hsteps : Changes N D m ws m') (h : m.Coded D) : m'.Coded D := by
  induction hsteps with
  | refl => exact h
  | tail _ hstep ih =>
    cases hstep with
    | newFunction hf => exact ih.newFunction hf
    | define | newScope | bind | newClass | newInstance | setField | output | tick | move => exact ih

theorem recorded_fresh (D : Declaration → Prop) (clock : Nat → Float) : (fresh clock).Recorded D [] where
  functions _ _ h := nomatch h
  superclasses _ _ h := nomatch h
  methods _ _ h := nomatch h
  objects _ h := nomatch h
  fields _ _ h := nomatch h

/-! Superclasses -/

/-- The lineage of a class is the whole way along its superclasses, however many of them there are. -/
theorem Recorded.way_lineage (h : m.Recorded D ws) (id : ClassId) : Way m.superclass? id (m.lineage id) := by
  fun_induction m.lineage id with
  | case1 id ih =>
    cases hsuper : m.superclass? id with
    | none =>
      have hlink : m.classes[id]?.bind ClassObject.superclass = none := hsuper
      rw [hlink]
      exact .last hsuper
    | some super =>
      have hlink : m.classes[id]?.bind ClassObject.superclass = some super := hsuper
      obtain ⟨c, hc, hcsuper⟩ := Option.bind_eq_some_iff.1 hlink
      have hlt : super < id := h.superclasses id c hc super hcsuper
      rw [hlink]
      simp only [if_pos hlt]
      exact .step hsuper (ih super hlt)

/-! `this` -/

/-- If no name is `this`, no scope that there is comes to bind it, or to bind it to something else. -/
theorem Change.get?_this (h : Change N D m ws m') (hN : ¬ N "this") (hs : s < m.scopes.size) :
    (m'.scopes.bindings s).get? "this" = (m.scopes.bindings s).get? "this" := by
  cases h with
  | @define scope name v hname =>
    show ((m.scopes.define scope name v).bindings s).get? "this" = _
    by_cases hscope : scope < m.scopes.size
    · have hne : ¬ (scope = s ∧ name = "this") := fun heq => hN (heq.2 ▸ hname)
      rw [m.scopes.get?_define scope s name "this" v hscope, if_neg hne]
    · have hne : ¬ (scope = s ∧ s < m.scopes.table.size) := fun heq => hscope (heq.1 ▸ heq.2)
      rw [Scopes.bindings_define, if_neg hne]
  | newScope parent =>
    show ((m.scopes.new (some parent)).2.bindings s).get? "this" = _
    rw [Scopes.bindings_new]
  | bind f receiver => rw [bindings_bind, if_neg (Nat.ne_of_lt hs)]
  | newFunction | newClass | newInstance | setField | output | tick | move => rfl

theorem Changes.get?_this (h : Changes N D m ws m') (hN : ¬ N "this") (hs : s < m.scopes.size) :
    (m'.scopes.bindings s).get? "this" = (m.scopes.bindings s).get? "this" := by
  induction h with
  | refl => rfl
  | tail hsteps hstep ih =>
    exact (hstep.get?_this hN (Nat.lt_of_lt_of_le hs hsteps.grows.scopes)).trans ih

/-- So what `this` is, looked up from a scope, never changes. -/
theorem Changes.lookUp_this (h : Changes N D m ws m') (hN : ¬ N "this") (hs : s < m.scopes.size) :
    m'.scopes.get? s "this" = m.scopes.get? s "this" := by
  have hkept (i : ScopeId) (hi : i ∈ m.scopes.chain s) :
      (m'.scopes.bindings i).get? "this" = (m.scopes.bindings i).get? "this" :=
    h.get?_this hN (Nat.lt_of_le_of_lt (m.scopes.le_of_mem_chain hi) hs)
  have howner : m'.scopes.owner? s "this" = m.scopes.owner? s "this" := by
    unfold Scopes.owner?
    rw [h.grows.chain hs]
    exact List.find?_congr fun i hi => congrArg Option.isSome (hkept i hi)
  unfold Scopes.get?
  rw [howner]
  cases hr : m.scopes.owner? s "this" with
  | none => rfl
  | some r => exact hkept r (List.mem_of_find?_eq_some hr)

theorem lt_size_of_get? {name : String} {v : Value} (h : m.scopes.get? s name = some v) : s < m.scopes.size := by
  refine Nat.lt_of_not_le fun hs => ?_
  -- from a scope that does not exist no other is reached
  have hparent : m.scopes.parent? s = none := by
    unfold Scopes.parent?
    rw [Array.getElem?_eq_none hs]
    rfl
  obtain ⟨r, hr, hv⟩ := Option.bind_eq_some_iff.1 h
  rw [Scopes.owner?, Scopes.chain, hparent] at hr
  have hrs : r ∈ [s] := List.mem_of_find?_eq_some hr
  rw [List.mem_singleton.1 hrs, Scopes.bindings_of_size_le _ hs] at hv
  cases hv

end Machine
end Lox
