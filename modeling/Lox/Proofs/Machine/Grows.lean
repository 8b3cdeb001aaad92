import Lox.Machine

/-! What every operation on a machine keeps. Scopes and objects are only added, names are only added to
scopes, and neither the parent of a scope nor the class of an instance ever changes. -/

namespace Lox
namespace Scopes

variable {α : Type} (s : Scopes α)

/-- The number of scopes, which is the number of the next one. -/
def size : Nat := s.table.size

@[simp] theorem size_new (parent : Option ScopeId) : (s.new parent).2.size = s.size + 1 := by
  simp [size, new]

@[simp] theorem size_define (id : ScopeId) (name : String) (v : α) : (s.define id name v).size = s.size := by
  simp [size, define]

/-- A new scope owns nothing, as does a scope that does not exist. -/
@[simp] theorem bindings_new (parent : Option ScopeId) (i : ScopeId) :
    (s.new parent).2.bindings i = s.bindings i := by
  simp only [bindings, new, Array.getElem?_push]
  split
  · next h => simp [h]
  · rfl

theorem parent?_new (parent : Option ScopeId) (i : ScopeId) :
    (s.new parent).2.parent? i = if i = s.size then parent else s.parent? i := by
  unfold parent? new
  rw [Array.getElem?_push]
  by_cases h : i = s.size
  · rw [if_pos h, if_pos (show i = s.table.size from h)]
    rfl
  · rw [if_neg h, if_neg (show ¬ i = s.table.size from h)]

theorem bindings_of_size_le {i : ScopeId} (h : s.size ≤ i) : s.bindings i = [] := by
  simp only [bindings, size] at h ⊢
  rw [Array.getElem?_eq_none h]
  rfl

theorem lt_size_of_owns {i : ScopeId} {name : String} (h : (s.bindings i).owns name) : i < s.size := by
  refine Nat.lt_of_not_le fun hn => ?_
  rw [s.bindings_of_size_le hn] at h
  cases h

theorem get?_define (id i : ScopeId) (name n : String) (v : α) (hid : id < s.size) :
    ((s.define id name v).bindings i).get? n =
      if id = i ∧ name = n then some v else (s.bindings i).get? n := by
  rw [bindings_define]
  by_cases hi : id = i
  · subst hi
    rw [if_pos ⟨rfl, hid⟩, Bindings.get?_set]
    simp
  · simp [hi]

theorem owns_define (id i : ScopeId) (name n : String) (v : α) (hid : id < s.size) :
    ((s.define id name v).bindings i).owns n ↔ (s.bindings i).owns n ∨ (i = id ∧ n = name) := by
  unfold Bindings.owns
  rw [get?_define s id i name n v hid]
  by_cases h : id = i ∧ name = n
  · obtain ⟨rfl, rfl⟩ := h
    simp
  · rw [if_neg h]
    refine ⟨.inl, fun ho => ho.resolve_right fun he => h ⟨he.1.symm, he.2.symm⟩⟩

/-- No definition takes a name away, wherever it is made. -/
theorem owns_define_of_owns {id i : ScopeId} {name n : String} {v : α} (h : (s.bindings i).owns n) :
    ((s.define id name v).bindings i).owns n := by
  by_cases hid : id < s.size
  · exact (s.owns_define id i name n v hid).2 (.inl h)
  · rw [bindings_define, if_neg (by rintro ⟨rfl, hi⟩; exact hid hi)]
    exact h

/-! The chain of scopes -/

theorem owns_of_owner? {id i : ScopeId} {name : String} (h : s.owner? id name = some i) :
    (s.bindings i).owns name := List.find?_some (p := fun i => (s.bindings i).owns name) h

theorem owner?_of_owns {id : ScopeId} {name : String} (h : (s.bindings id).owns name) :
    s.owner? id name = some id := by
  unfold owner?
  rw [chain]
  exact List.find?_cons_of_pos h

/-- The way outward begins at the scope itself. -/
theorem ancestor?_zero (id : ScopeId) : s.ancestor? id 0 = some id := by
  unfold ancestor?
  rw [chain]
  rfl

/-- A scope that does not own a name leaves it to the one around it. -/
theorem owner?_of_parent? {id parent : ScopeId} {name : String} (h : ¬ (s.bindings id).owns name)
    (hparent : s.parent? id = some parent) (hlt : parent < id) : s.owner? id name = s.owner? parent name := by
  unfold owner?
  rw [chain, hparent]
  simp only [if_pos hlt]
  exact List.find?_cons_of_neg h

/-- A way outward that is not empty goes on from the scope around. -/
theorem ancestor?_succ {id parent : ScopeId} (hparent : s.parent? id = some parent) (hlt : parent < id)
    (distance : Nat) : s.ancestor? id (distance + 1) = s.ancestor? parent distance := by
  unfold ancestor?
  rw [chain, hparent]
  simp [hlt]

theorem le_of_mem_chain {id i : ScopeId} (h : i ∈ s.chain id) : i ≤ id := by
  fun_induction s.chain id with
  | case1 id ih =>
    rcases List.mem_cons.1 h with rfl | h
    · exact Nat.le_refl _
    split at h
    · cases h
    · next p hp =>
      split at h
      · next hlt => exact Nat.le_trans (ih p hlt h) (Nat.le_of_lt hlt)
      · cases h

end Scopes

namespace Machine

structure Grows (m m' : Machine) : Prop where
  scopes : m.scopes.size ≤ m'.scopes.size
  parents : ∀ s < m.scopes.size, m'.scopes.parent? s = m.scopes.parent? s
  owns : ∀ s n, (m.scopes.bindings s).owns n → (m'.scopes.bindings s).owns n
  functions : ∀ (id : FunctionId) f, m.functions[id]? = some f → m'.functions[id]? = some f
  classes : ∀ (id : ClassId) c, m.classes[id]? = some c → m'.classes[id]? = some c
  instances : ∀ (o : InstanceId) i, m.instances[o]? = some i →
    ∃ i', m'.instances[o]? = some i' ∧ i'.cls = i.cls
  natives : ∀ (id : NativeId) n, m.natives[id]? = some n → m'.natives[id]? = some n

variable {m m' m'' : Machine}

theorem Grows.refl (m : Machine) : m.Grows m :=
  ⟨Nat.le_refl _, fun _ _ => rfl, fun _ _ => id, fun _ _ => id, fun _ _ => id, fun _ i h => ⟨i, h, rfl⟩,
    fun _ _ => id⟩

theorem Grows.trans (h : m.Grows m') (h' : m'.Grows m'') : m.Grows m'' where
  scopes := Nat.le_trans h.scopes h'.scopes
  parents s hs := (h'.parents s (Nat.lt_of_lt_of_le hs h.scopes)).trans (h.parents s hs)
  owns s n hn := h'.owns s n (h.owns s n hn)
  functions id f hf := h'.functions id f (h.functions id f hf)
  classes id c hc := h'.classes id c (h.classes id c hc)
  instances o i hi := by
    obtain ⟨i₁, h₁, hc₁⟩ := h.instances o i hi
    obtain ⟨i₂, h₂, hc₂⟩ := h'.instances o i₁ h₁
    exact ⟨i₂, h₂, hc₂.trans hc₁⟩
  natives id n hn := h'.natives id n (h.natives id n hn)

/-- The way outward from a scope there is does not change. -/
theorem Grows.chain (hg : m.Grows m') {s : ScopeId} (hs : s < m.scopes.size) :
    m'.scopes.chain s = m.scopes.chain s := by
  fun_induction m.scopes.chain s with
  | case1 s ih =>
    rw [Scopes.chain, hg.parents s hs]
    congr 1
    split
    · rfl
    · next p hp =>
      split
      · next hlt => exact ih p hlt (Nat.lt_trans hlt hs)
      · rfl

theorem getElem?_push_of_some {α : Type} {xs : Array α} {i : Nat} {x y : α} (h : xs[i]? = some y) :
    (xs.push x)[i]? = some y := by
  rw [Array.getElem?_push, if_neg, h]
  rintro rfl
  simp at h

theorem grows_define (m : Machine) (scope : ScopeId) (name : String) (v : Value) :
    m.Grows (m.define scope name v) :=
  { Grows.refl m with
    scopes := Nat.le_of_eq (m.scopes.size_define scope name v).symm
    parents := fun s _ => m.scopes.parent?_define scope s name v
    owns := fun _ _ h => m.scopes.owns_define_of_owns h }

theorem grows_newScope (m : Machine) (parent : ScopeId) : m.Grows (m.newScope parent).2 :=
  { Grows.refl m with
    scopes := by
      show m.scopes.size ≤ (m.scopes.new (some parent)).2.size
      rw [Scopes.size_new]
      exact Nat.le_succ _
    parents := fun s hs => by
      show (m.scopes.new (some parent)).2.parent? s = _
      rw [Scopes.parent?_new, if_neg (Nat.ne_of_lt hs)]
    owns := fun s n h => by
      show ((m.scopes.new (some parent)).2.bindings s).owns n
      rwa [Scopes.bindings_new] }

theorem grows_newFunction (m : Machine) (f : FunctionObject) : m.Grows (m.newFunction f).2 :=
  { Grows.refl m with functions := fun _ _ h => getElem?_push_of_some h }

theorem grows_newClass (m : Machine) (c : ClassObject) : m.Grows (m.newClass c).2 :=
  { Grows.refl m with classes := fun _ _ h => getElem?_push_of_some h }

theorem grows_newInstance (m : Machine) (cls : ClassId) : m.Grows (m.newInstance cls).2 :=
  { Grows.refl m with instances := fun _ i h => ⟨i, getElem?_push_of_some h, rfl⟩ }

theorem grows_setField (m : Machine) (object : InstanceId) (name : String) (v : Value) :
    m.Grows (m.setField object name v) :=
  { Grows.refl m with
    instances := fun o i h => by
      simp only [setField, Array.getElem?_modify, h, Option.map_some]
      split
      · exact ⟨_, rfl, rfl⟩
      · exact ⟨i, rfl, rfl⟩ }

theorem grows_bind (m : Machine) (f : FunctionObject) (receiver : Value) :
    m.Grows (m.bind f receiver).2 :=
  (grows_newScope m f.closure).trans (grows_define _ _ "this" receiver)

/-- Methods are found by way of the classes alone. -/
theorem lineage_congr (h : m'.classes = m.classes) (id : ClassId) : m'.lineage id = m.lineage id := by
  fun_induction m.lineage id with
  | case1 id ih =>
    rw [lineage, h]
    congr 1
    split
    · rfl
    · next c _ =>
      split
      · next hlt => exact ih c hlt
      · rfl

theorem findMethod?_congr (h : m'.classes = m.classes) (id : ClassId) (name : String) :
    m'.findMethod? id name = m.findMethod? id name := by
  unfold findMethod?
  rw [lineage_congr h, h]

/-- A new scope inside `parent` in which names have values by position, as a call or a block enters it. -/
def enter (m : Machine) (parent : ScopeId) (params : List Token) (arguments : List Value) :
    ScopeId × Machine :=
  let (scope, m) := m.newScope parent
  (scope, (params.zip arguments).foldl (fun m p => m.define scope p.1.lexeme p.2) m)

theorem grows_foldl_define (scope : ScopeId) (ps : List (Token × Value)) :
    ∀ m : Machine, m.Grows (ps.foldl (fun m p => m.define scope p.1.lexeme p.2) m) := by
  induction ps with
  | nil => exact Grows.refl
  | cons p ps ih => exact fun m => (grows_define m scope p.1.lexeme p.2).trans (ih _)

theorem parent?_enter (m : Machine) (parent : ScopeId) (params : List Token) (arguments : List Value) :
    (m.enter parent params arguments).2.scopes.parent? m.scopes.size = some parent := by
  have hlt : m.scopes.size < (m.newScope parent).2.scopes.size := by
    rw [show (m.newScope parent).2.scopes.size = _ from Scopes.size_new ..]
    exact Nat.lt_succ_self _
  refine ((grows_foldl_define m.scopes.size (params.zip arguments) _).parents _ hlt).trans ?_
  exact (Scopes.parent?_new ..).trans (if_pos rfl)

end Machine
end Lox
