import Lox.Proofs.Machine.Sound

/-! What a part of a run leaves behind. `Evolves P names m m'` says that steps lead from `m` to `m'`, that names
are looked up from the same scope as before, and that of the scopes there were only that one may own more
names, which are `names`. What happens in a scope made on the way does not count. -/

namespace Lox
namespace Machine

variable {P : Token → Prop} {m m' m'' : Machine} {names names' : List String}

theorem iff_or_mem_nil {p q : Prop} {n : String} : p ↔ p ∨ (q ∧ n ∈ []) :=
  ⟨.inl, fun h => h.resolve_right fun hq => List.not_mem_nil hq.2⟩

/-- Whether the scopes of `m` own the same names in `m'`, but for the current one, which owns `names` too. -/
def Gains (names : List String) (m m' : Machine) : Prop :=
  ∀ s < m.scopes.size, ∀ n, (m'.scopes.bindings s).owns n ↔
    (m.scopes.bindings s).owns n ∨ (s = m.current ∧ n ∈ names)

structure Evolves (P : Token → Prop) (names : List String) (m m' : Machine) : Prop where
  steps : Steps P m m'
  current : m'.current = m.current
  owns : Gains names m m'

theorem Evolves.grows (h : Evolves P names m m') : m.Grows m' := h.steps.grows

theorem Evolves.refl (P : Token → Prop) (m : Machine) : Evolves P [] m m :=
  ⟨.refl, rfl, fun _ _ _ => iff_or_mem_nil⟩

theorem Evolves.trans (h : Evolves P names m m') (h' : Evolves P names' m' m'') :
    Evolves P (names ++ names') m m'' where
  steps := Relation.ReflTransGen.trans h.steps h'.steps
  current := h'.current.trans h.current
  owns s hs n := by
    rw [h'.owns s (Nat.lt_of_lt_of_le hs h.grows.scopes) n, h.owns s hs n, h.current, List.mem_append,
      and_or_left, or_assoc]

/-- A part that leaves no names behind, and another part. -/
theorem Evolves.then (h : Evolves P [] m m') (h' : Evolves P names m' m'') : Evolves P names m m'' :=
  h.trans h'

/-- A part behind which no more names are left. -/
theorem Evolves.finish (h : Evolves P names m m') (h' : Evolves P [] m' m'') : Evolves P names m m'' := by
  simpa using h.trans h'

/-- A step that leaves the scopes alone. -/
theorem evolves_of_step (hstep : Step P m m') (hcurrent : m'.current = m.current)
    (hscopes : m'.scopes = m.scopes) : Evolves P [] m m' where
  steps := .single hstep
  current := hcurrent
  owns s _ n := by
    rw [hscopes]
    exact iff_or_mem_nil

theorem evolves_newFunction {f : FunctionObject} (hf : m.SoundFunction P f) :
    Evolves P [] m (m.newFunction f).2 := evolves_of_step (.newFunction hf) rfl rfl

theorem evolves_newClass {c : ClassObject} (hc : m.SoundClass c) : Evolves P [] m (m.newClass c).2 :=
  evolves_of_step (.newClass hc) rfl rfl

theorem evolves_newInstance {cls : ClassId} (hcls : m.Known (.class cls)) :
    Evolves P [] m (m.newInstance cls).2 := evolves_of_step (.newInstance hcls) rfl rfl

theorem evolves_setField (o : InstanceId) (name : String) {v : Value} (hv : m.Known v) :
    Evolves P [] m (m.setField o name v) := evolves_of_step (.setField hv) rfl rfl

theorem evolves_output (text : String) : Evolves P [] m { m with output := text } :=
  evolves_of_step (.output text) rfl rfl

theorem evolves_tick : Evolves P [] m { m with readings := m.readings + 1 } :=
  evolves_of_step .tick rfl rfl

/-- A declaration leaves its name behind. -/
theorem evolves_declare (h : m.Sound P) {name : String} {v : Value} (hname : Names P name)
    (hv : m.Known v) : Evolves P [name] m (m.define m.current name v) where
  steps := .single (.define h.current hname hv h.outside)
  current := rfl
  owns s _ n := by
    rw [List.mem_singleton]
    exact m.scopes.owns_define m.current s name n v h.current

/-- An assignment leaves no name behind that was not there. -/
theorem evolves_assign (h : m.Sound P) {scope : ScopeId} {name : String} {v : Value}
    (hname : Names P name) (hv : m.Known v) (howns : (m.scopes.bindings scope).owns name) :
    Evolves P [] m (m.define scope name v) where
  steps := by
    have hscope : scope < m.scopes.size := m.scopes.lt_size_of_owns howns
    refine .single (.define hscope hname hv fun hp hthis => ?_)
    -- a scope that owns `this` owns nothing else, and the name is not `this`
    obtain ⟨o, ho⟩ := h.receivers hp scope hthis
    rw [ho] at howns
    have hne : "this" ≠ name := fun he => hp (he ▸ hname)
    simp [Bindings.owns, Bindings.get?, hne] at howns
  current := rfl
  owns s _ n := by
    have hscope : scope < m.scopes.size := m.scopes.lt_size_of_owns howns
    refine (m.scopes.owns_define scope s name n v hscope).trans ⟨fun ho => .inl ?_, fun ho => .inl ?_⟩
    · rcases ho with ho | ⟨rfl, rfl⟩
      · exact ho
      · exact howns
    · exact iff_or_mem_nil.2 ho

theorem evolves_bind {f : FunctionObject} {o : InstanceId} (hf : m.SoundFunction P f)
    (ho : m.Known (.instance o)) : Evolves P [] m (m.bind f (.instance o)).2 where
  steps := .single (.bind hf ho)
  current := rfl
  owns s hs n := by
    rw [bindings_bind, if_neg (Nat.ne_of_lt hs)]
    exact iff_or_mem_nil

/-! Entering a scope -/

section Enter

variable {scope : ScopeId}

theorem current_size_foldl_define (m : Machine) (scope : ScopeId) (ps : List (Token × Value)) :
    (ps.foldl (fun m p => m.define scope p.1.lexeme p.2) m).current = m.current ∧
      (ps.foldl (fun m p => m.define scope p.1.lexeme p.2) m).scopes.size = m.scopes.size := by
  induction ps generalizing m with
  | nil => exact ⟨rfl, rfl⟩
  | cons p ps ih =>
    obtain ⟨hcurrent, hsize⟩ := ih (m.define scope p.1.lexeme p.2)
    exact ⟨hcurrent, hsize.trans (m.scopes.size_define ..)⟩

/-- Definitions in one scope leave the others alone. -/
theorem bindings_foldl_define (scope s : ScopeId) (hs : s ≠ scope) (ps : List (Token × Value)) :
    ∀ m : Machine, (ps.foldl (fun m p => m.define scope p.1.lexeme p.2) m).scopes.bindings s =
      m.scopes.bindings s := by
  induction ps with
  | nil => exact fun _ => rfl
  | cons p ps ih =>
    intro m
    rw [List.foldl_cons, ih]
    show (m.scopes.define scope p.1.lexeme p.2).bindings s = _
    rw [Scopes.bindings_define, if_neg fun h => hs h.1.symm]

theorem steps_foldl_define (ps : List (Token × Value)) : ∀ m : Machine, scope < m.scopes.size →
    (∀ p ∈ ps, p.1.IsName P ∧ m.Known p.2) →
      (ThisReserved P → ¬ (m.scopes.bindings scope).owns "this") →
        Steps P m (ps.foldl (fun m p => m.define scope p.1.lexeme p.2) m) ∧
          (ThisReserved P → ¬ ((ps.foldl (fun m p => m.define scope p.1.lexeme p.2) m).scopes.bindings
            scope).owns "this") := by
  induction ps with
  | nil => exact fun m _ _ hthis => ⟨.refl, hthis⟩
  | cons p ps ih =>
    intro m hscope hps hthis
    obtain ⟨⟨hname, hv⟩, hps⟩ := List.forall_mem_cons.1 hps
    have hnames : Names P p.1.lexeme := ⟨p.1, hname, rfl⟩
    have hg := grows_define m scope p.1.lexeme p.2
    obtain ⟨hsteps, hafter⟩ := ih (m.define scope p.1.lexeme p.2) (Nat.lt_of_lt_of_le hscope hg.scopes)
      (fun q hq => ⟨(hps q hq).1, (hps q hq).2.mono hg⟩)
      (fun hp ho => hthis hp ((owns_this_define hscope hnames hp).1 ho))
    exact ⟨.head (.define hscope hnames hv hthis) hsteps, hafter⟩

variable {parent : ScopeId} {params : List Token} {arguments : List Value}

theorem size_enter (m : Machine) (parent : ScopeId) (params : List Token) (arguments : List Value) :
    (m.enter parent params arguments).2.scopes.size = m.scopes.size + 1 := by
  refine (current_size_foldl_define (m.newScope parent).2 m.scopes.size (params.zip arguments)).2.trans ?_
  exact Scopes.size_new ..

theorem current_enter (m : Machine) (parent : ScopeId) (params : List Token) (arguments : List Value) :
    (m.enter parent params arguments).2.current = m.current :=
  (current_size_foldl_define (m.newScope parent).2 m.scopes.size (params.zip arguments)).1

theorem bindings_enter {s : ScopeId} (hs : s < m.scopes.size) :
    (m.enter parent params arguments).2.scopes.bindings s = m.scopes.bindings s :=
  (bindings_foldl_define m.scopes.size s (Nat.ne_of_lt hs) _ _).trans (Scopes.bindings_new ..)

/-- A scope is entered by steps, and does not own `this` if no name is spelled so. -/
theorem steps_enter (hparent : parent < m.scopes.size) (hparams : ∀ p ∈ params, p.IsName P)
    (hargs : ∀ v ∈ arguments, m.Known v) :
    Steps P m (m.enter parent params arguments).2 ∧ (ThisReserved P →
      ¬ ((m.enter parent params arguments).2.scopes.bindings m.scopes.size).owns "this") := by
  have hg := grows_newScope m parent
  have hnone : ((m.newScope parent).2.scopes.bindings m.scopes.size) = [] :=
    (Scopes.bindings_new ..).trans (Scopes.bindings_of_size_le _ (Nat.le_refl _))
  have hsize : m.scopes.size < (m.newScope parent).2.scopes.size := by
    rw [show (m.newScope parent).2.scopes.size = _ from Scopes.size_new ..]
    exact Nat.lt_succ_self _
  obtain ⟨hsteps, hthis⟩ := steps_foldl_define (P := P) (params.zip arguments) (m.newScope parent).2 hsize
    (fun p hp => ⟨hparams _ (List.of_mem_zip hp).1, (hargs _ (List.of_mem_zip hp).2).mono hg⟩)
    (fun _ ho => by rw [hnone] at ho; cases ho)
  exact ⟨.head (.newScope hparent) hsteps, hthis⟩

/-- A body begins in a machine that steps lead to: it has a scope of its own, and names are looked up from there. -/
theorem steps_into (hparent : parent < m.scopes.size) (hparams : ∀ p ∈ params, p.IsName P)
    (hargs : ∀ v ∈ arguments, m.Known v) :
    Steps P m { (m.enter parent params arguments).2 with current := m.scopes.size } := by
  obtain ⟨hsteps, hthis⟩ := steps_enter hparent hparams hargs
  have hsize : m.scopes.size < (m.enter parent params arguments).2.scopes.size := by
    rw [size_enter]
    exact Nat.lt_succ_self _
  exact hsteps.tail (.move hsize hthis)

end Enter

/-! The scopes that own `this` -/

/-- If no name is spelled `this`, a scope that there is neither comes to own it nor changes if it does. -/
theorem Step.receiver (hstep : Step P m m') (hp : ThisReserved P) {s : ScopeId}
    (hs : s < m.scopes.size) :
    ((m'.scopes.bindings s).owns "this" ↔ (m.scopes.bindings s).owns "this") ∧
      ((m.scopes.bindings s).owns "this" → m'.scopes.bindings s = m.scopes.bindings s) := by
  cases hstep with
  | @define scope name v hscope hname _ hthis =>
    refine ⟨owns_this_define hscope hname hp, fun ho => ?_⟩
    show (m.scopes.define scope name v).bindings s = _
    rw [Scopes.bindings_define, if_neg]
    rintro ⟨rfl, -⟩
    exact hthis hp ho
  | newScope =>
    rw [show (m.newScope _).2.scopes.bindings s = _ from Scopes.bindings_new ..]
    exact ⟨Iff.rfl, fun _ => rfl⟩
  | bind =>
    rw [bindings_bind, if_neg (Nat.ne_of_lt hs)]
    exact ⟨Iff.rfl, fun _ => rfl⟩
  | newFunction | newClass | newInstance | setField | output | tick | move =>
    exact ⟨Iff.rfl, fun _ => rfl⟩

theorem Steps.receiver (hsteps : Steps P m m') (hp : ThisReserved P) {s : ScopeId}
    (hs : s < m.scopes.size) :
    ((m'.scopes.bindings s).owns "this" ↔ (m.scopes.bindings s).owns "this") ∧
      ((m.scopes.bindings s).owns "this" → m'.scopes.bindings s = m.scopes.bindings s) := by
  induction hsteps with
  | refl => exact ⟨Iff.rfl, fun _ => rfl⟩
  | tail hsteps hstep ih =>
    have hlast := hstep.receiver hp (Nat.lt_of_lt_of_le hs (Steps.grows hsteps).scopes)
    exact ⟨hlast.1.trans ih.1, fun ho => (hlast.2 (ih.1.2 ho)).trans (ih.2 ho)⟩

/-- Whatever is done in a scope that was entered, it leaves no names behind outside. -/
theorem Evolves.within (h : m.Sound P) {parent : ScopeId} {params : List Token} {arguments : List Value}
    (hparent : parent < m.scopes.size) (hparams : ∀ p ∈ params, p.IsName P)
    (hargs : ∀ v ∈ arguments, m.Known v)
    (hrun : Evolves P names { (m.enter parent params arguments).2 with current := m.scopes.size } m') :
    Evolves P [] m { m' with current := m.current } := by
  have hsize := size_enter m parent params arguments
  have hsteps : Steps P m m' := (steps_into hparent hparams hargs).trans hrun.steps
  refine ⟨hsteps.tail (.move ?_ fun hp ho => ?_), rfl, fun s hs n => ?_⟩
  · exact Nat.lt_of_lt_of_le h.current (Steps.grows hsteps).scopes
  · exact h.outside hp ((Steps.receiver hsteps hp h.current).1.1 ho)
  · refine (hrun.owns s (by show s < (m.enter parent params arguments).2.scopes.size; omega) n).trans ?_
    show (((m.enter parent params arguments).2.scopes.bindings s).owns n ∨ _) ↔ _
    rw [bindings_enter hs]
    exact ⟨fun ho => .inl (ho.resolve_right fun he => Nat.ne_of_lt hs he.1),
      fun ho => .inl (iff_or_mem_nil.2 ho)⟩

end Machine
end Lox
