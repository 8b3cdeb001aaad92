import Lox.Proofs.Evaluation.Lexical
import Lox.Proofs.Machine.Evolves
import Mathlib.Logic.Function.Basic

/-! Where a machine stands in the text. Each scope but the globals is one of the text and owns names only that
the text declares in it. A scope stands where the text has certain scopes around it if those are the scopes
around it in the machine, and they own the names whose declarations are done there. Functions stand where they
are written. -/

namespace Lox
namespace Lexical

open Machine

/-- What each scope declares, if it is not the globals. -/
abbrev Declarations := ScopeId → List String

variable {P : Token → Prop} {D D' D'' : Declarations} {Φ : Frames}

/-! Scopes -/

/-- Whether the scopes outward from a scope are those of the text. -/
inductive Stands (D : Declarations) (scopes : Scopes Value) : Frames → ScopeId → Prop where
  | outside : Stands D scopes [] globals
  | inside {F : Frame} {Φ : Frames} {scope parent : ScopeId} : scope < scopes.size → D scope = F.declared →
      (∀ n ∈ F.settled, (scopes.bindings scope).owns n) → scopes.parent? scope = some parent →
        parent < scope → Stands D scopes Φ parent → Stands D scopes (F :: Φ) scope

/-- Whether the scopes within the globals own what the text declares in them, and nothing else. -/
def Declares (D : Declarations) (scopes : Scopes Value) : Prop :=
  ∀ scope n, scope ≠ globals → (scopes.bindings scope).owns n → n ∈ D scope

variable {scopes : Scopes Value} {scope : ScopeId} {name : String} {names : List String}

theorem Stands.lt_size (h : Stands D scopes Φ scope) (hglobals : globals < scopes.size) :
    scope < scopes.size := by
  cases h with
  | outside => exact hglobals
  | inside hsize => exact hsize

/-- Names that the scope has come to own are settled. -/
theorem Stands.settle (h : Stands D scopes Φ scope) (hn : ∀ n ∈ names, (scopes.bindings scope).owns n) :
    Stands D scopes (Φ.settle names) scope := by
  cases h with
  | outside => exact .outside
  | inside hsize hD hsettled hparent hlt hrest =>
    refine .inside hsize hD (fun n hm => ?_) hparent hlt hrest
    rcases List.mem_append.1 hm with hm | hm
    · exact hsettled n hm
    · exact hn n hm

theorem ne_globals {parent : ScopeId} (h : parent < scope) : scope ≠ globals :=
  Nat.ne_of_gt (Nat.lt_of_le_of_lt (Nat.zero_le parent) h)

/-- If a scope around declares a name that is in order, the search for it comes to that scope, which lies as
far outward as the text says. -/
theorem Stands.owner?_of_distance? (h : Stands D scopes Φ scope) (hD : Declares D scopes) {distance : Nat}
    (hallows : Φ.allows name) (hdistance : Φ.context.distance? name = some distance) :
    ∃ owner, scopes.owner? scope name = some owner ∧ scopes.ancestor? scope distance = some owner := by
  induction h generalizing distance with
  | outside => cases hdistance
  | @inside F Φ scope parent _ hF hsettled hparent hlt _ ih =>
    rw [Frames.allows_cons] at hallows
    rw [Frames.context, List.map_cons, Context.distance?_cons] at hdistance
    by_cases hn : F.declared.contains name
    · rw [if_pos hn] at hallows hdistance
      cases hdistance
      have howns := hsettled name (by simpa using hallows)
      exact ⟨scope, scopes.owner?_of_owns howns, scopes.ancestor?_zero scope⟩
    · rw [if_neg hn] at hallows hdistance
      obtain ⟨d, hd, rfl⟩ := Option.map_eq_some_iff.1 hdistance
      obtain ⟨owner, howner, hancestor⟩ := ih hallows hd
      have hnot : ¬ (scopes.bindings scope).owns name := fun ho =>
        hn (List.contains_iff_mem.2 (hF ▸ hD scope name (ne_globals hlt) ho))
      exact ⟨owner, (scopes.owner?_of_parent? hnot hparent hlt).trans howner,
        (scopes.ancestor?_succ hparent hlt d).trans hancestor⟩

/-- If no scope around declares a name, the search for it comes to the globals or to nothing. -/
theorem Stands.owner?_of_none (h : Stands D scopes Φ scope) (hD : Declares D scopes)
    (hdistance : Φ.context.distance? name = none) :
    scopes.owner? scope name = if (scopes.bindings globals).owns name then some globals else none := by
  induction h with
  | outside =>
    have hchain : scopes.chain globals = [globals] := by
      rw [Scopes.chain]
      cases scopes.parent? globals <;> rfl
    unfold Scopes.owner?
    rw [hchain, List.find?_cons]
    cases (scopes.bindings globals).owns name <;> rfl
  | @inside F Φ scope parent _ hF _ hparent hlt _ ih =>
    rw [Frames.context, List.map_cons, Context.distance?_cons] at hdistance
    by_cases hn : F.declared.contains name
    · rw [if_pos hn] at hdistance
      cases hdistance
    · rw [if_neg hn] at hdistance
      have hnot : ¬ (scopes.bindings scope).owns name := fun ho =>
        hn (List.contains_iff_mem.2 (hF ▸ hD scope name (ne_globals hlt) ho))
      rw [scopes.owner?_of_parent? hnot hparent hlt]
      exact ih (Option.map_eq_none_iff.1 hdistance)

/-- A scope may be given the names that the text declares in it. -/
theorem Stands.mem_declared (h : Stands D scopes Φ scope) (hn : ∀ F ∈ Φ.head?, name ∈ F.declared)
    (hne : scope ≠ globals) : name ∈ D scope := by
  cases h with
  | outside => exact absurd rfl hne
  | inside _ hF => exact hF ▸ hn _ rfl

/-! Functions and values -/

/-- Whether a function has a body that is in order in the scopes of the text that are kept for it. -/
structure Written (P : Token → Prop) (s : State) (Φ : Frames) (id : FunctionId) (f : FunctionObject) : Prop where
  function : s.machine.functions[id]? = some f
  context : s.contexts[id]? = some Φ.context
  formed : f.declaration.Formed P
  orderly : Stmt.orderlyAll (.ofBody f.declaration.params f.declaration.body :: Φ) f.declaration.body

/-- Whether a value, if it is a function, is one that stands where it is written. -/
def Placed (P : Token → Prop) (D : Declarations) (s : State) (v : Value) : Prop :=
  ∀ id, v = .function id → ∃ Φ f, Written P s Φ id f ∧ Stands D s.machine.scopes Φ f.closure

/-- Whether a function is a method that stands where its class is. The scope of `this` is still to come. -/
def Method (P : Token → Prop) (D : Declarations) (s : State) (id : FunctionId) : Prop :=
  ∃ Φ f, Written P s (.this :: Φ) id f ∧ Stands D s.machine.scopes Φ f.closure

structure Faithful (P : Token → Prop) (D : Declarations) (s : State) : Prop where
  globals : Machine.globals < s.machine.scopes.size
  contexts : s.contexts.size = s.machine.functions.size
  declares : Declares D s.machine.scopes
  bindings : ∀ scope n v, (s.machine.scopes.bindings scope).get? n = some v → Placed P D s v
  fields : ∀ (o : InstanceId) i, s.machine.instances[o]? = some i → ∀ n v, i.fields.get? n = some v →
    Placed P D s v
  methods : ∀ (c : ClassId) cls, s.machine.classes[c]? = some cls → ∀ n id, cls.methods.get? n = some id →
    Method P D s id

/-- Whether what stands somewhere in `s` stands there in `s'`. -/
structure Extends (D : Declarations) (s : State) (D' : Declarations) (s' : State) : Prop where
  grows : s.machine.Grows s'.machine
  declared : ∀ scope < s.machine.scopes.size, D' scope = D scope
  contexts : ∀ (id : FunctionId) Γ, s.contexts[id]? = some Γ → s'.contexts[id]? = some Γ

variable {s s' s'' : State} {v : Value}

theorem Extends.refl (D : Declarations) (s : State) : Extends D s D s :=
  ⟨.refl s.machine, fun _ _ => rfl, fun _ _ => id⟩

theorem Extends.trans (h : Extends D s D' s') (h' : Extends D' s' D'' s'') : Extends D s D'' s'' where
  grows := h.grows.trans h'.grows
  declared scope hs :=
    (h'.declared scope (Nat.lt_of_lt_of_le hs h.grows.scopes)).trans (h.declared scope hs)
  contexts id Γ hid := h'.contexts id Γ (h.contexts id Γ hid)

theorem Stands.mono (h : Stands D s.machine.scopes Φ scope) (he : Extends D s D' s') :
    Stands D' s'.machine.scopes Φ scope := by
  induction h with
  | outside => exact .outside
  | inside hsize hD hsettled hparent hlt _ ih =>
    exact .inside (Nat.lt_of_lt_of_le hsize he.grows.scopes) ((he.declared _ hsize).trans hD)
      (fun n hn => he.grows.owns _ n (hsettled n hn)) ((he.grows.parents _ hsize).trans hparent) hlt ih

theorem Written.mono {id : FunctionId} {f : FunctionObject} (h : Written P s Φ id f) (he : Extends D s D' s') :
    Written P s' Φ id f :=
  ⟨he.grows.functions id f h.function, he.contexts id _ h.context, h.formed, h.orderly⟩

theorem Placed.mono (h : Placed P D s v) (he : Extends D s D' s') : Placed P D' s' v := by
  intro id hid
  obtain ⟨Φ, f, hf, hstands⟩ := h id hid
  exact ⟨Φ, f, hf.mono he, hstands.mono he⟩

theorem Method.mono {id : FunctionId} (h : Method P D s id) (he : Extends D s D' s') : Method P D' s' id := by
  obtain ⟨Φ, f, hf, hstands⟩ := h
  exact ⟨Φ, f, hf.mono he, hstands.mono he⟩

theorem placed_of_ne (h : ∀ id, v ≠ .function id) : Placed P D s v := fun id hid => absurd hid (h id)

/-- What is faithful stays so if what is new in it is placed. -/
theorem Faithful.extend (h : Faithful P D s) (he : Extends D s D' s')
    (hcontexts : s'.contexts.size = s'.machine.functions.size) (hdeclares : Declares D' s'.machine.scopes)
    (hbindings : ∀ scope n v, (s'.machine.scopes.bindings scope).get? n = some v →
      (s.machine.scopes.bindings scope).get? n = some v ∨ Placed P D' s' v)
    (hfields : ∀ (o : InstanceId) i, s'.machine.instances[o]? = some i → ∀ n v, i.fields.get? n = some v →
      (∃ i', s.machine.instances[o]? = some i' ∧ i'.fields.get? n = some v) ∨ Placed P D' s' v)
    (hmethods : ∀ (c : ClassId) cls, s'.machine.classes[c]? = some cls → s.machine.classes[c]? = some cls ∨
      ∀ n id, cls.methods.get? n = some id → Method P D' s' id) : Faithful P D' s' where
  globals := Nat.lt_of_lt_of_le h.globals he.grows.scopes
  contexts := hcontexts
  declares := hdeclares
  bindings scope n v hv :=
    (hbindings scope n v hv).elim (fun hv => (h.bindings scope n v hv).mono he) id
  fields o i hi n v hv := by
    rcases hfields o i hi n v hv with ⟨i', hi', hv⟩ | hv
    · exact (h.fields o i' hi' n v hv).mono he
    · exact hv
  methods c cls hc n id hid :=
    (hmethods c cls hc).elim (fun hc => (h.methods c cls hc n id hid).mono he) fun hm => hm n id hid

/-- What a part of an evaluation leaves: more of the same, looked at from the same scope. -/
structure Later (P : Token → Prop) (D : Declarations) (s : State) (D' : Declarations)
    (s' : State) : Prop extends Extends D s D' s' where
  current : s'.machine.current = s.machine.current
  faithful : Faithful P D' s'

theorem Faithful.later (h : Faithful P D s) : Later P D s D s :=
  { Extends.refl D s with current := rfl, faithful := h }

theorem Later.trans (h : Later P D s D' s') (h' : Later P D' s' D'' s'') : Later P D s D'' s'' :=
  { h.toExtends.trans h'.toExtends with
    current := h'.current.trans h.current
    faithful := h'.faithful }

theorem Stands.later (h : Stands D s.machine.scopes Φ s.machine.current) (hl : Later P D s D' s') :
    Stands D' s'.machine.scopes Φ s'.machine.current := by
  rw [hl.current]
  exact h.mono hl.toExtends

/-! Operations -/

theorem extends_define (D : Declarations) (s : State) (scope : ScopeId) (name : String) (v : Value) :
    Extends D s D { s with machine := s.machine.define scope name v } :=
  { Extends.refl D s with grows := grows_define s.machine scope name v }

/-- A definition. The value may be placed only now that the name is there. -/
theorem Faithful.later_define (h : Faithful P D s) (hscope : scope < s.machine.scopes.size)
    (hname : scope ≠ Machine.globals → name ∈ D scope)
    (hv : Placed P D { s with machine := s.machine.define scope name v } v) :
    Later P D s D { s with machine := s.machine.define scope name v } := by
  have he := extends_define D s scope name v
  refine { he with current := rfl, faithful := h.extend he h.contexts ?_ ?_ ?_ ?_ }
  · intro scope' n hne ho
    rcases (Scopes.owns_define _ scope scope' name n v hscope).1 ho with ho | ⟨rfl, rfl⟩
    · exact h.declares scope' n hne ho
    · exact hname hne
  · intro scope' n w hw
    rw [show ((s.machine.define scope name v).scopes.bindings scope').get? n = _ from
      Scopes.get?_define _ scope scope' name n v hscope] at hw
    split at hw
    · exact .inr (Option.some.inj hw ▸ hv)
    · exact .inl hw
  · exact fun o i hi n w hw => .inl ⟨i, hi, hw⟩
  · exact fun c cls hc => .inl hc

/-- A change of the machine that leaves its store alone. -/
theorem Faithful.ofStore (h : Faithful P D s) {m : Machine} (hg : s.machine.Grows m)
    (hscopes : m.scopes = s.machine.scopes) (hfunctions : m.functions = s.machine.functions)
    (hclasses : m.classes = s.machine.classes) (hinstances : m.instances = s.machine.instances) :
    Faithful P D { s with machine := m } := by
  refine h.extend { Extends.refl D s with grows := hg } ?_ ?_ ?_ ?_ ?_
  · exact h.contexts.trans (congrArg Array.size hfunctions).symm
  · exact hscopes ▸ h.declares
  · exact fun scope n v hv => .inl (hscopes ▸ hv)
  · exact fun o i hi n v hv => .inl ⟨i, hinstances ▸ hi, hv⟩
  · exact fun c cls hc => .inl (hclasses ▸ hc)

/-- Names may be looked up from any scope. -/
theorem Faithful.move (h : Faithful P D s) (scope : ScopeId) :
    let s' : State := { s with machine := { s.machine with current := scope } }
    Extends D s D s' ∧ Faithful P D s' := by
  have hg : s.machine.Grows { s.machine with current := scope } := { Grows.refl s.machine with }
  exact ⟨{ Extends.refl D s with grows := hg }, h.ofStore hg rfl rfl rfl rfl⟩

theorem Faithful.later_write (h : Faithful P D s) (text : String) :
    Later P D s D { s with machine := s.machine.write text } := by
  have hg : s.machine.Grows (s.machine.write text) := { Grows.refl s.machine with }
  exact { Extends.refl D s with grows := hg, current := rfl, faithful := h.ofStore hg rfl rfl rfl rfl }

theorem Faithful.later_tick (h : Faithful P D s) :
    Later P D s D { s with machine := { s.machine with readings := s.machine.readings + 1 } } := by
  have hg : s.machine.Grows { s.machine with readings := s.machine.readings + 1 } :=
    { Grows.refl s.machine with }
  exact { Extends.refl D s with grows := hg, current := rfl, faithful := h.ofStore hg rfl rfl rfl rfl }

/-- A new scope stands inside the one it is made in, with none of its names settled. -/
theorem Faithful.later_newScope (h : Faithful P D s) {parent : ScopeId} (declared : List String)
    (hparent : Stands D s.machine.scopes Φ parent) :
    let D' := Function.update D s.machine.scopes.size declared
    let m := (s.machine.newScope parent).2
    Later P D s D' { s with machine := m } ∧ Stands D' m.scopes (⟨declared, []⟩ :: Φ) s.machine.scopes.size := by
  intro D' m
  have hsize : m.scopes.size = s.machine.scopes.size + 1 := Scopes.size_new ..
  have hbindings (t : ScopeId) : m.scopes.bindings t = s.machine.scopes.bindings t := Scopes.bindings_new ..
  have he : Extends D s D' { s with machine := m } :=
    { grows := grows_newScope s.machine parent
      declared := fun t ht => Function.update_of_ne (Nat.ne_of_lt ht) ..
      contexts := fun _ _ => id }
  refine ⟨{ he with current := rfl, faithful := h.extend he h.contexts ?_ ?_ ?_ ?_ }, ?_⟩
  · intro t n hne ho
    rw [hbindings] at ho
    have ht := Scopes.lt_size_of_owns _ ho
    rw [he.declared t ht]
    exact h.declares t n hne ho
  · exact fun t n v hv => .inl (hbindings t ▸ hv)
  · exact fun o i hi n v hv => .inl ⟨i, hi, hv⟩
  · exact fun c cls hc => .inl hc
  · have hlt : s.machine.scopes.size < m.scopes.size := hsize ▸ Nat.lt_succ_self _
    refine .inside hlt (Function.update_self ..) nofun ?_ (hparent.lt_size h.globals) (hparent.mono he)
    exact (Scopes.parent?_new ..).trans (if_pos rfl)

theorem Faithful.later_foldl_define (ps : List (Token × Value)) : ∀ s : State, Faithful P D s →
    scope < s.machine.scopes.size → (∀ p ∈ ps, p.1.lexeme ∈ D scope ∧ Placed P D s p.2) →
      let m := ps.foldl (fun m p => m.define scope p.1.lexeme p.2) s.machine
      Later P D s D { s with machine := m } ∧ ∀ p ∈ ps, (m.scopes.bindings scope).owns p.1.lexeme := by
  induction ps with
  | nil => exact fun s h _ _ => ⟨h.later, List.forall_mem_nil _⟩
  | cons p ps ih =>
    intro s h hscope hps
    obtain ⟨⟨hname, hv⟩, hps⟩ := List.forall_mem_cons.1 hps
    let m₁ : Machine := s.machine.define scope p.1.lexeme p.2
    have hfirst : Later P D s D { s with machine := m₁ } := 
      h.later_define hscope (fun _ => hname) (hv.mono (extends_define ..))
    have howned : (m₁.scopes.bindings scope).owns p.1.lexeme :=
      (s.machine.scopes.owns_define scope scope _ _ p.2 hscope).2 (.inr ⟨rfl, rfl⟩)
    obtain ⟨hrest, howns⟩ := ih { s with machine := m₁ } hfirst.faithful
      (Nat.lt_of_lt_of_le hscope hfirst.grows.scopes)
      fun q hq => ⟨(hps q hq).1, (hps q hq).2.mono hfirst.toExtends⟩
    have hkept := (grows_foldl_define scope ps m₁).owns scope _ howned
    exact ⟨hfirst.trans hrest, List.forall_mem_cons.2 ⟨hkept, howns⟩⟩

/-- A scope that is entered with a value for each parameter stands where its body begins. -/
theorem Faithful.later_enter (h : Faithful P D s) {parent : ScopeId} (hparent : Stands D s.machine.scopes Φ parent)
    {params : List Token} {arguments : List Value} (hlength : params.length = arguments.length)
    (hargs : ∀ v ∈ arguments, Placed P D s v) (body : List Stmt) :
    let D' := Function.update D s.machine.scopes.size (Frame.ofBody params body).declared
    let m := (s.machine.enter parent params arguments).2
    Later P D s D' { s with machine := m } ∧
      Stands D' m.scopes (.ofBody params body :: Φ) s.machine.scopes.size := by
  intro D' m
  obtain ⟨hnew, hstands⟩ := h.later_newScope (Frame.ofBody params body).declared hparent
  have hparams (p : Token) (hp : p ∈ params) : p.lexeme ∈ D' s.machine.scopes.size := by
    rw [show D' s.machine.scopes.size = _ from Function.update_self ..]
    exact List.mem_append_left _ (List.mem_map_of_mem hp)
  obtain ⟨hbound, howns⟩ := Faithful.later_foldl_define (params.zip arguments)
    { s with machine := (s.machine.newScope parent).2 } hnew.faithful
    (hstands.lt_size hnew.faithful.globals)
    fun p hp => ⟨hparams _ (List.of_mem_zip hp).1, (hargs _ (List.of_mem_zip hp).2).mono hnew.toExtends⟩
  have hsettled : ∀ n ∈ params.map Token.lexeme, (m.scopes.bindings s.machine.scopes.size).owns n := by
    intro n hn
    obtain ⟨p, hp, rfl⟩ := List.mem_map.1 hn
    rw [← List.map_fst_zip (Nat.le_of_eq hlength)] at hp
    obtain ⟨q, hq, rfl⟩ := List.mem_map.1 hp
    exact howns q hq
  have hscope : Stands D' m.scopes (⟨(Frame.ofBody params body).declared, []⟩ :: Φ) s.machine.scopes.size :=
    hstands.mono hbound.toExtends
  exact ⟨hnew.trans hbound, hscope.settle hsettled⟩

/-- A method that is bound has the scope of `this` around it. -/
theorem Faithful.later_bind (h : Faithful P D s) {f : FunctionObject} (hf : Stands D s.machine.scopes Φ f.closure)
    (hv : Placed P D s v) :
    let D' := Function.update D s.machine.scopes.size Frame.this.declared
    let m := (s.machine.bind f v).2
    Later P D s D' { s with machine := m } ∧ Stands D' m.scopes (.this :: Φ) s.machine.scopes.size := by
  intro D' m
  obtain ⟨hnew, hstands⟩ := h.later_newScope Frame.this.declared hf
  have hsize := hstands.lt_size hnew.faithful.globals
  have hthis : "this" ∈ D' s.machine.scopes.size := by
    rw [show D' s.machine.scopes.size = _ from Function.update_self ..]
    exact List.mem_singleton_self _
  have hbound := hnew.faithful.later_define hsize (fun _ => hthis)
    (hv.mono (hnew.toExtends.trans (extends_define ..)))
  have hsettled : ∀ n ∈ ["this"], (m.scopes.bindings s.machine.scopes.size).owns n :=
    List.forall_mem_singleton.2 ((Scopes.owns_define _ _ _ _ _ v hsize).2 (.inr ⟨rfl, rfl⟩))
  have hscope : Stands D' m.scopes (⟨Frame.this.declared, []⟩ :: Φ) s.machine.scopes.size :=
    hstands.mono hbound.toExtends
  exact ⟨hnew.trans hbound, hscope.settle hsettled⟩

theorem Faithful.later_newFunction (h : Faithful P D s) (f : FunctionObject) (Γ : Context) :
    Later P D s D ⟨(s.machine.newFunction f).2, s.contexts.push Γ⟩ := by
  have he : Extends D s D ⟨(s.machine.newFunction f).2, s.contexts.push Γ⟩ :=
    { grows := grows_newFunction s.machine f
      declared := fun _ _ => rfl
      contexts := fun _ _ hid => getElem?_push_of_some hid }
  refine { he with current := rfl, faithful := h.extend he ?_ h.declares ?_ ?_ ?_ }
  · simp [newFunction, h.contexts]
  · exact fun t n v hv => .inl hv
  · exact fun o i hi n v hv => .inl ⟨i, hi, hv⟩
  · exact fun c cls hc => .inl hc

/-- The function that was made last has the scopes that were kept for it last. -/
theorem Faithful.written_newFunction (h : Faithful P D s) {f : FunctionObject}
    (hformed : f.declaration.Formed P)
    (horderly : Stmt.orderlyAll (.ofBody f.declaration.params f.declaration.body :: Φ) f.declaration.body) :
    Written P ⟨(s.machine.newFunction f).2, s.contexts.push Φ.context⟩ Φ s.machine.functions.size f where
  function := by simp [newFunction]
  context := by simp [← h.contexts]
  formed := hformed
  orderly := horderly

theorem Faithful.later_newClass (h : Faithful P D s) (c : ClassObject)
    (hmethods : ∀ n id, c.methods.get? n = some id → Method P D s id) :
    Later P D s D { s with machine := (s.machine.newClass c).2 } := by
  have he : Extends D s D { s with machine := (s.machine.newClass c).2 } :=
    { Extends.refl D s with grows := grows_newClass s.machine c }
  refine { he with current := rfl, faithful := h.extend he h.contexts h.declares ?_ ?_ ?_ }
  · exact fun t n v hv => .inl hv
  · exact fun o i hi n v hv => .inl ⟨i, hi, hv⟩
  · intro id cls hc
    rcases getElem?_push_eq_some hc with rfl | hc
    · exact .inr fun n id hid => (hmethods n id hid).mono he
    · exact .inl hc

theorem Faithful.later_newInstance (h : Faithful P D s) (cls : ClassId) :
    Later P D s D { s with machine := (s.machine.newInstance cls).2 } := by
  have he : Extends D s D { s with machine := (s.machine.newInstance cls).2 } :=
    { Extends.refl D s with grows := grows_newInstance s.machine cls }
  refine { he with current := rfl, faithful := h.extend he h.contexts h.declares ?_ ?_ ?_ }
  · exact fun t n v hv => .inl hv
  · intro o i hi n v hv
    rcases getElem?_push_eq_some hi with rfl | hi
    · cases hv
    · exact .inl ⟨i, hi, hv⟩
  · exact fun c cls hc => .inl hc

theorem Faithful.later_setField (h : Faithful P D s) (object : InstanceId) (name : String) (hv : Placed P D s v) :
    Later P D s D { s with machine := s.machine.setField object name v } := by
  have he : Extends D s D { s with machine := s.machine.setField object name v } :=
    { Extends.refl D s with grows := grows_setField s.machine object name v }
  refine { he with current := rfl, faithful := h.extend he h.contexts h.declares ?_ ?_ ?_ }
  · exact fun t n v hv => .inl hv
  · intro o i hi n w hw
    simp only [setField, Array.getElem?_modify] at hi
    split at hi
    · obtain ⟨i', hi', rfl⟩ := Option.map_eq_some_iff.1 hi
      dsimp only at hw
      rw [Bindings.get?_set] at hw
      split at hw
      · exact .inr ((Option.some.inj hw ▸ hv).mono he)
      · exact .inl ⟨i', hi', hw⟩
    · exact .inl ⟨i, hi, hw⟩
  · exact fun c cls hc => .inl hc

theorem faithful_fresh (P : Token → Prop) (D : Declarations) (clock : Nat → Float) :
    Faithful P D ⟨fresh clock, #[]⟩ where
  globals := Nat.zero_lt_one
  contexts := rfl
  declares scope n hne ho := by
    rw [bindings_fresh, if_neg hne] at ho
    cases ho
  bindings scope n v hv := by
    rw [bindings_fresh] at hv
    split at hv
    · refine placed_of_ne ?_
      rintro id rfl
      simp [Bindings.get?] at hv
    · cases hv
  fields _ _ h := nomatch h
  methods _ _ h := nomatch h

end Lexical
end Lox
