import Lox.Proofs.Machine.Sound

/-! The links of a machine. Scopes lead to their parents and classes to their superclasses, and whatever is looked
up is looked for from one to the next, until it is found or there is no next. In a sound machine all references
lead to something that exists and every way along the links comes to an end. -/

namespace Lox

section Ways

variable {α : Type} {link : α → Option α} {found : α → Bool} {a : α} {way way' : List α} {r r' : Option α}

/-- The way from a place along the links, up to a place that has none. -/
inductive Way (link : α → Option α) : α → List α → Prop where
  | last {a : α} : link a = none → Way link a [a]
  | step {a b : α} {way : List α} : link a = some b → Way link b way → Way link a (a :: way)

/-- A search along the links, step by step, and the place where it ends, if it finds one. -/
inductive Search (link : α → Option α) (found : α → Bool) : α → Option α → Prop where
  | here {a : α} : found a = true → Search link found a (some a)
  | step {a b : α} {r : Option α} : found a = false → link a = some b → Search link found b r →
      Search link found a r
  | gone {a : α} : found a = false → link a = none → Search link found a none

/-- The place so many links away. -/
def climb (link : α → Option α) : Nat → α → Option α
  | 0, a => some a
  | n + 1, a => (link a).bind (climb link n)

theorem Way.unique (h : Way link a way) (h' : Way link a way') : way' = way := by
  induction h generalizing way' with
  | last hlast =>
    cases h' with
    | last => rfl
    | step hstep =>
      rw [hlast] at hstep
      cases hstep
  | step hstep _ ih =>
    cases h' with
    | last hlast =>
      rw [hstep] at hlast
      cases hlast
    | step hstep' h' =>
      rw [hstep] at hstep'
      cases hstep'
      rw [ih h']

/-- Where the way ends the search does, if it has not ended before. -/
theorem Way.search (h : Way link a way) (found : α → Bool) : Search link found a (way.find? found) := by
  induction h with
  | @last a hlast =>
    cases hf : found a with
    | true => simpa [hf] using Search.here hf
    | false => simpa [hf] using Search.gone hf hlast
  | @step a b way hstep _ ih =>
    cases hf : found a with
    | true => simpa [hf] using Search.here hf
    | false => simpa [hf] using Search.step hf hstep ih

theorem Search.unique (h : Search link found a r) (h' : Search link found a r') : r' = r := by
  induction h with
  | here hf => cases h' <;> simp_all
  | gone hf hlast => cases h' <;> simp_all
  | step hf hstep _ ih =>
    cases h' with
    | here hf' =>
      rw [hf] at hf'
      cases hf'
    | gone _ hlast =>
      rw [hstep] at hlast
      cases hlast
    | step _ hstep' h' =>
      rw [hstep] at hstep'
      cases hstep'
      exact ih h'

/-- Along a way that ends every search comes to an end, and to one only. -/
theorem Way.search_iff (h : Way link a way) (found : α → Bool) (r : Option α) :
    Search link found a r ↔ r = way.find? found := by
  constructor
  · intro hr
    exact (h.search found).unique hr
  · rintro rfl
    exact h.search found

theorem Way.climb_eq (h : Way link a way) (n : Nat) : climb link n a = way[n]? := by
  induction n generalizing a way with
  | zero => cases h <;> rfl
  | succ n ih =>
    cases h with
    | last hlast => simp [climb, hlast]
    | step hstep h => simpa [climb, hstep] using ih h

end Ways

namespace Scopes

variable {α : Type} {s : Scopes α}

/-- Whether every scope lies inside an older one, or inside none. -/
def Older (s : Scopes α) : Prop := ∀ i < s.size, ∀ p, s.parent? i = some p → p < i

/-- The chain of a scope is the whole way along its links, since each parent is older than its child. -/
theorem Older.way_chain (h : s.Older) {id : ScopeId} (hid : id < s.size) : Way s.parent? id (s.chain id) := by
  fun_induction s.chain id with
  | case1 id ih =>
    cases hp : s.parent? id with
    | none => simpa [hp] using Way.last hp
    | some p =>
      have hlt : p < id := h id hid p hp
      simpa [hp, hlt] using Way.step hp (ih p hlt (Nat.lt_trans hlt hid))

theorem length_chain (s : Scopes α) (id : ScopeId) : (s.chain id).length = s.depth id + 1 := by
  have hpos : 0 < (s.chain id).length := by
    rw [chain]
    exact Nat.succ_pos _
  unfold depth
  omega

end Scopes

namespace Machine

variable {P : Token → Prop} {m m' : Machine} {s : ScopeId}

/-- Whether what a value refers to exists. -/
def Has (m : Machine) : Value → Prop
  | .function id => id < m.functions.size
  | .class id => id < m.classes.size
  | .instance id => id < m.instances.size
  | .native id => id < m.natives.size
  | .nil | .bool _ | .number _ | .string _ => True

/-- The superclass of a class. -/
def superclass? (m : Machine) (id : ClassId) : Option ClassId := m.classes[id]?.bind ClassObject.superclass

/-- Whether a class declares a method itself. -/
def declares (m : Machine) (name : String) (id : ClassId) : Bool :=
  (m.classes[id]?.bind (·.methods.get? name)).isSome

/-- A store without a reference to nothing and without a way that goes on for ever. -/
structure Linked (m : Machine) : Prop where
  older : ∀ s < m.scopes.size, ∀ p, m.scopes.parent? s = some p → p < s
  root : ∀ s < m.scopes.size, (m.scopes.parent? s = none ↔ s = globals)
  outward : ∀ s < m.scopes.size, ∃ way, Way m.scopes.parent? s way ∧ way.getLast? = some globals ∧
    ∀ i ∈ way, i < m.scopes.size
  current : m.current < m.scopes.size
  bindings : ∀ s n v, (m.scopes.bindings s).get? n = some v → m.Has v
  closures : ∀ (id : FunctionId) f, m.functions[id]? = some f → f.closure < m.scopes.size
  superclasses : ∀ (id : ClassId) c, m.classes[id]? = some c →
    ∀ super, c.superclass = some super → super < m.classes.size
  methods : ∀ (id : ClassId) c, m.classes[id]? = some c →
    ∀ n f, c.methods.get? n = some f → f < m.functions.size
  instances : ∀ (id : InstanceId) o, m.instances[id]? = some o →
    o.cls < m.classes.size ∧ ∀ n v, o.fields.get? n = some v → m.Has v

/-- What is looked up in a store, against the steps in which it is looked for. -/
structure Finds (m : Machine) : Prop where
  name : ∀ s < m.scopes.size, ∀ name, ∃ r,
    (∀ r', Search m.scopes.parent? (fun i => (m.scopes.bindings i).owns name) s r' ↔ r' = r) ∧
    m.scopes.get? s name = (r.bind fun i => (m.scopes.bindings i).get? name) ∧
    ∀ v, m.scopes.assign? s name v = r.map fun i => m.scopes.define i name v
  ancestor : ∀ s < m.scopes.size, ∀ distance, climb m.scopes.parent? distance s = m.scopes.ancestor? s distance
  depth : ∀ s < m.scopes.size, ∀ way, Way m.scopes.parent? s way ↔
    way = m.scopes.chain s ∧ way.length = m.scopes.depth s + 1
  method : ∀ id < m.classes.size, ∀ name, ∃ r,
    (∀ r', Search m.superclass? (m.declares name) id r' ↔ r' = r) ∧
    m.findMethod? id name = r.bind fun c => m.classes[c]?.bind (·.methods.get? name)

theorem Known.has {v : Value} (h : m.Known v) : m.Has v := by
  cases v with
  | function id =>
    obtain ⟨f, hf, -⟩ := h
    exact (Array.getElem?_eq_some_iff.1 hf).1
  | «class» id =>
    obtain ⟨c, hc⟩ := h
    exact (Array.getElem?_eq_some_iff.1 hc).1
  | «instance» id =>
    obtain ⟨o, ho⟩ := h
    exact (Array.getElem?_eq_some_iff.1 ho).1
  | native id =>
    obtain ⟨n, hn⟩ := h
    exact (Array.getElem?_eq_some_iff.1 hn).1
  | nil | bool | number | string => trivial

theorem Sound.older (h : m.Sound P) : m.scopes.Older := by
  intro s hs p hp
  rcases h.parents s hs with ⟨-, hnone⟩ | ⟨q, hlt, hq⟩
  · rw [hnone] at hp
    cases hp
  · rw [hq] at hp
    cases hp
    exact hlt

theorem Sound.getLast?_chain (h : m.Sound P) (hs : s < m.scopes.size) :
    (m.scopes.chain s).getLast? = some globals := by
  fun_induction m.scopes.chain s with
  | case1 s ih =>
    rcases h.parents s hs with ⟨rfl, hnone⟩ | ⟨p, hlt, hp⟩
    · simp [hnone]
    · have hrest := ih p hlt (Nat.lt_trans hlt hs)
      rw [hp]
      simp only [if_pos hlt]
      rw [List.getLast?_cons, hrest]
      rfl

theorem Sound.linked (h : m.Sound P) : m.Linked where
  older := h.older
  root s hs := by
    constructor
    · intro hnone
      rcases h.parents s hs with ⟨hglobals, -⟩ | ⟨q, -, hq⟩
      · exact hglobals
      · rw [hnone] at hq
        cases hq
    · rintro rfl
      rcases h.parents globals hs with ⟨-, hnone⟩ | ⟨q, hlt, -⟩
      · exact hnone
      · exact absurd hlt (Nat.not_lt_zero q)
  outward s hs := by
    refine ⟨m.scopes.chain s, h.older.way_chain hs, h.getLast?_chain hs, fun i hi => ?_⟩
    exact Nat.lt_of_le_of_lt (m.scopes.le_of_mem_chain hi) hs
  current := h.current
  bindings s n v hv := (h.bindings s n v hv).has
  closures id f hf := (h.functions id f hf).closure
  superclasses id c hc super hsuper := by
    rw [(h.classes id c hc).superclass] at hsuper
    cases hsuper
  methods id c hc n f hf := by
    obtain ⟨g, hg, -⟩ := (h.classes id c hc).methods n f hf
    exact (Array.getElem?_eq_some_iff.1 hg).1
  instances id o ho := by
    obtain ⟨c, hc⟩ := (h.instances id o ho).cls
    exact ⟨(Array.getElem?_eq_some_iff.1 hc).1, fun n v hv => ((h.instances id o ho).fields n v hv).has⟩

theorem Sound.superclass?_eq_none (h : m.Sound P) (id : ClassId) : m.superclass? id = none := by
  unfold superclass?
  cases hc : m.classes[id]? with
  | none => rfl
  | some c => exact (h.classes id c hc).superclass

/-- The lineage of a class is the whole way along its superclasses. -/
theorem Sound.way_lineage (h : m.Sound P) (id : ClassId) : Way m.superclass? id (m.lineage id) := by
  have hnone : m.superclass? id = none := h.superclass?_eq_none id
  have hlineage : m.lineage id = [id] := by
    rw [lineage, show m.classes[id]?.bind ClassObject.superclass = none from hnone]
  rw [hlineage]
  exact .last hnone

theorem findMethod?_eq_find? (m : Machine) (id : ClassId) (name : String) :
    m.findMethod? id name =
      ((m.lineage id).find? (m.declares name)).bind fun c => m.classes[c]?.bind (·.methods.get? name) := by
  unfold findMethod?
  induction m.lineage id with
  | nil => rfl
  | cons c cs ih =>
    rw [List.findSome?_cons, List.find?_cons]
    cases hc : m.classes[c]?.bind (·.methods.get? name) with
    | none => simpa [declares, hc] using ih
    | some f => simp [declares, hc]

theorem Sound.finds (h : m.Sound P) : m.Finds where
  name s hs name := ⟨m.scopes.owner? s name, (h.older.way_chain hs).search_iff _, rfl, fun _ => rfl⟩
  ancestor s hs distance := (h.older.way_chain hs).climb_eq distance
  depth s hs way := by
    have hway := h.older.way_chain hs
    constructor
    · intro hw
      obtain rfl := hway.unique hw
      exact ⟨rfl, m.scopes.length_chain s⟩
    · rintro ⟨rfl, -⟩
      exact hway
  method id _ name := ⟨_, (h.way_lineage id).search_iff (m.declares name), m.findMethod?_eq_find? id name⟩

end Machine
end Lox
