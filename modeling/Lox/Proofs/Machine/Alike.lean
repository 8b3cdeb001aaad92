import Lox.Proofs.Scope

/-! Machines that differ in empty scopes. A pairing says which scopes of one machine stand for which of the other. Paired
scopes hold the same, scopes without a partner hold nothing, so the way outward may pass them by and a search for a
name ends in scopes that are paired, or in none on either side. -/

namespace Lox

/-- Which scopes of two machines stand for each other. -/
abbrev Pairing := ScopeId → ScopeId → Prop

namespace Pairing

/-- A scope for each of the first `n`, the same one. -/
def upTo (n : Nat) : Pairing := fun i j => i = j ∧ i < n

def add (T : Pairing) (i j : ScopeId) : Pairing := fun a b => T a b ∨ (a = i ∧ b = j)

theorem add_self (T : Pairing) (i j : ScopeId) : T.add i j i j := .inr ⟨rfl, rfl⟩

end Pairing

namespace Scopes

variable {α : Type} {T T₁ T₂ : Pairing} {s s' s₁ s₁' s₂ s₂' : Scopes α} {o o' p q : Option ScopeId} {i j : ScopeId}

/-- Whether the ways outward from two places come through paired scopes, past scopes that have no partner. -/
inductive Beside (T : Pairing) (s s' : Scopes α) : Option ScopeId → Option ScopeId → Prop where
  | outside : Beside T s s' none none
  | pair {i j : ScopeId} : T i j → Beside T s s' (some i) (some j)
  | left {i : ScopeId} {o' : Option ScopeId} : i < s.size → (∀ j, ¬ T i j) → Beside T s s' (s.parent? i) o' →
      Beside T s s' (some i) o'
  | right {o : Option ScopeId} {j : ScopeId} : j < s'.size → (∀ i, ¬ T i j) → Beside T s s' o (s'.parent? j) →
      Beside T s s' o (some j)

/-- Scopes that hold the same, apart from scopes that hold nothing. -/
structure Alike (T : Pairing) (s s' : Scopes α) : Prop where
  unique : ∀ {i j i' j'}, T i j → T i' j' → (i = i' ↔ j = j')
  ltLeft : ∀ {i j}, T i j → i < s.size
  ltRight : ∀ {i j}, T i j → j < s'.size
  bindings : ∀ {i j}, T i j → s'.bindings j = s.bindings i
  around : ∀ {i j}, T i j → Beside T s s' (s.parent? i) (s'.parent? j)
  bareLeft : ∀ i < s.size, (∀ j, ¬ T i j) → s.bindings i = []
  bareRight : ∀ j < s'.size, (∀ i, ¬ T i j) → s'.bindings j = []
  olderLeft : s.Older
  olderRight : s'.Older

/-- Whether the scopes of `s` are still where they were. -/
structure Extends (s s₁ : Scopes α) : Prop where
  size : s.size ≤ s₁.size
  parents : ∀ i < s.size, s₁.parent? i = s.parent? i

/-- What becomes of a pairing while scopes are made: only scopes that are new on both sides are paired. -/
structure Widens (T : Pairing) (s s' : Scopes α) (T₁ : Pairing) (s₁ s₁' : Scopes α) : Prop where
  left : s.Extends s₁
  right : s'.Extends s₁'
  keeps : ∀ {i j}, T i j → T₁ i j
  adds : ∀ {i j}, T₁ i j → T i j ∨ s.size ≤ i ∧ s'.size ≤ j

theorem Extends.refl (s : Scopes α) : s.Extends s := ⟨Nat.le_refl _, fun _ _ => rfl⟩

theorem Extends.trans (h : s.Extends s₁) (h' : s₁.Extends s₂) : s.Extends s₂ where
  size := Nat.le_trans h.size h'.size
  parents i hi := (h'.parents i (Nat.lt_of_lt_of_le hi h.size)).trans (h.parents i hi)

theorem extends_define (s : Scopes α) (id : ScopeId) (name : String) (v : α) : s.Extends (s.define id name v) where
  size := Nat.le_of_eq (s.size_define id name v).symm
  parents i _ := s.parent?_define id i name v

theorem extends_new (s : Scopes α) (parent : Option ScopeId) : s.Extends (s.new parent).2 where
  size := by
    rw [size_new]
    exact Nat.le_succ _
  parents i hi := by rw [parent?_new, if_neg (Nat.ne_of_lt hi)]

theorem Widens.refl (T : Pairing) (s s' : Scopes α) : Widens T s s' T s s' := ⟨.refl s, .refl s', id, .inl⟩

theorem Widens.trans (h : Widens T s s' T₁ s₁ s₁') (h' : Widens T₁ s₁ s₁' T₂ s₂ s₂') : Widens T s s' T₂ s₂ s₂' where
  left := h.left.trans h'.left
  right := h.right.trans h'.right
  keeps hT := h'.keeps (h.keeps hT)
  adds hT := by
    rcases h'.adds hT with hT | ⟨hi, hj⟩
    · exact h.adds hT
    · exact .inr ⟨Nat.le_trans h.left.size hi, Nat.le_trans h.right.size hj⟩

/-- Where two ways outward go alike they do so ever after. -/
theorem Beside.widen (hb : Beside T s s' o o') (h : Widens T s s' T₁ s₁ s₁') : Beside T₁ s₁ s₁' o o' := by
  induction hb with
  | outside => exact .outside
  | pair hT => exact .pair (h.keeps hT)
  | left hi hbare _ ih =>
    refine .left (Nat.lt_of_lt_of_le hi h.left.size) (fun j hT => ?_) (by rwa [h.left.parents _ hi])
    rcases h.adds hT with hT | ⟨hle, -⟩
    · exact hbare j hT
    · exact absurd hi (Nat.not_lt_of_le hle)
  | right hj hbare _ ih =>
    refine .right (Nat.lt_of_lt_of_le hj h.right.size) (fun i hT => ?_) (by rwa [h.right.parents _ hj])
    rcases h.adds hT with hT | ⟨-, hle⟩
    · exact hbare i hT
    · exact absurd hj (Nat.not_lt_of_le hle)

theorem Alike.lt_left (h : s.Alike T s') (hb : Beside T s s' o o') : ∀ i ∈ o, i < s.size := by
  induction hb with
  | outside => exact nofun
  | pair hT =>
    rintro _ ⟨⟩
    exact h.ltLeft hT
  | left hi =>
    rintro _ ⟨⟩
    exact hi
  | right _ _ _ ih => exact ih

/-- Either side may be called the left one. -/
theorem Beside.mirror (hb : Beside T s s' o o') : Beside (flip T) s' s o' o := by
  induction hb with
  | outside => exact .outside
  | pair hT => exact .pair hT
  | left hi hbare _ ih => exact .right hi hbare ih
  | right hj hbare _ ih => exact .left hj hbare ih

theorem Alike.mirror (h : s.Alike T s') : s'.Alike (flip T) s where
  unique ha hc := (h.unique ha hc).symm
  ltLeft ha := h.ltRight ha
  ltRight ha := h.ltLeft ha
  bindings ha := (h.bindings ha).symm
  around ha := (h.around ha).mirror
  bareLeft := h.bareRight
  bareRight := h.bareLeft
  olderLeft := h.olderRight
  olderRight := h.olderLeft

theorem Alike.lt_right (h : s.Alike T s') (hb : Beside T s s' o o') : ∀ j ∈ o', j < s'.size :=
  h.mirror.lt_left hb.mirror

/-! Looking up -/

theorem Older.owner?_eq (h : s.Older) (hi : i < s.size) (name : String) :
    s.owner? i name = if (s.bindings i).owns name then some i else (s.parent? i).bind (s.owner? · name) := by
  split
  · next ho => exact s.owner?_of_owns ho
  · next ho =>
    cases hp : s.parent? i with
    | some p => exact s.owner?_of_parent? ho hp (h i hi p hp)
    | none =>
      unfold owner?
      rw [chain, hp]
      exact List.find?_cons_of_neg ho

/-- A scope without names leaves every search to the one around it. -/
theorem Older.owner?_of_bare (h : s.Older) (hi : i < s.size) (hbare : s.bindings i = []) (name : String) :
    s.owner? i name = (s.parent? i).bind (s.owner? · name) := by
  rw [h.owner?_eq hi, hbare]
  exact if_neg nofun

/-- How far out a place is from the innermost scope that there could be. -/
def height (o : Option ScopeId) : Nat := o.elim 0 (· + 1)

theorem Older.height_parent? (h : s.Older) (hi : i < s.size) : height (s.parent? i) < height (some i) := by
  cases hp : s.parent? i with
  | none => exact Nat.succ_pos i
  | some p => exact Nat.succ_lt_succ (h i hi p hp)

/-- The induction is on both places at once, since either side may pass scopes by on its own. -/
theorem Alike.owners (h : s.Alike T s') (name : String) {o o' : Option ScopeId} (hb : Beside T s s' o o') :
    Option.Rel T (o.bind (s.owner? · name)) (o'.bind (s'.owner? · name)) := by
  induction hn : height o + height o' using Nat.strongRecOn generalizing o o' with
  | ind n ih =>
  subst hn
  cases hb with
  | outside => exact .none
  | @pair i j hT =>
    have hi : i < s.size := h.ltLeft hT
    have hj : j < s'.size := h.ltRight hT
    simp only [Option.bind_some]
    rw [h.olderLeft.owner?_eq hi, h.olderRight.owner?_eq hj, h.bindings hT]
    split
    · exact .some hT
    · exact ih _ (Nat.add_lt_add (h.olderLeft.height_parent? hi) (h.olderRight.height_parent? hj)) (h.around hT) rfl
  | @left i _ hi hbare hrest =>
    rw [Option.bind_some, h.olderLeft.owner?_of_bare hi (h.bareLeft i hi hbare)]
    exact ih _ (Nat.add_lt_add_right (h.olderLeft.height_parent? hi) _) hrest rfl
  | @right _ j hj hbare hrest =>
    rw [Option.bind_some, h.olderRight.owner?_of_bare hj (h.bareRight j hj hbare)]
    exact ih _ (Nat.add_lt_add_left (h.olderRight.height_parent? hj) _) hrest rfl

theorem Alike.owner? (h : s.Alike T s') (hb : Beside T s s' (some i) (some j)) (name : String) :
    Option.Rel T (s.owner? i name) (s'.owner? j name) := h.owners name hb

theorem Alike.get?_eq (h : s.Alike T s') (hb : Beside T s s' (some i) (some j)) (name : String) :
    s'.get? j name = s.get? i name := by
  have howners := h.owner? hb name
  unfold get?
  generalize s.owner? i name = r, s'.owner? j name = r' at howners
  cases howners with
  | none => rfl
  | some hT => simp only [Option.bind_some, h.bindings hT]

/-! Making and writing -/

theorem widens_define (T : Pairing) (s s' : Scopes α) (i j : ScopeId) (name : String) (v : α) :
    Widens T s s' T (s.define i name v) (s'.define j name v) :=
  ⟨s.extends_define i name v, s'.extends_define j name v, id, .inl⟩

theorem Alike.define (h : s.Alike T s') (hT : T i j) (name : String) (v : α) :
    (s.define i name v).Alike T (s'.define j name v) where
  unique := h.unique
  ltLeft ha := by
    rw [size_define]
    exact h.ltLeft ha
  ltRight ha := by
    rw [size_define]
    exact h.ltRight ha
  bindings {a b} ha := by
    rw [bindings_define, bindings_define, h.bindings ha]
    exact if_congr (and_congr (h.unique hT ha).symm
      ⟨fun _ => h.ltLeft ha, fun _ => h.ltRight ha⟩) rfl rfl
  around ha := by
    rw [parent?_define, parent?_define]
    exact (h.around ha).widen (widens_define T s s' i j name v)
  bareLeft a ha hbare := by
    rw [size_define] at ha
    rw [bindings_define, if_neg, h.bareLeft a ha hbare]
    rintro ⟨rfl, -⟩
    exact hbare j hT
  bareRight b hb hbare := by
    rw [size_define] at hb
    rw [bindings_define, if_neg, h.bareRight b hb hbare]
    rintro ⟨rfl, -⟩
    exact hbare i hT
  olderLeft := h.olderLeft.define i name v
  olderRight := h.olderRight.define j name v

theorem widens_new (T : Pairing) (s s' : Scopes α) (p q : Option ScopeId) :
    Widens T s s' (T.add s.size s'.size) (s.new p).2 (s'.new q).2 where
  left := s.extends_new p
  right := s'.extends_new q
  keeps := .inl
  adds := by
    rintro _ _ (hT | ⟨rfl, rfl⟩)
    · exact .inl hT
    · exact .inr ⟨Nat.le_refl _, Nat.le_refl _⟩

/-- Two scopes that are made at the same time are paired. -/
theorem Alike.new (h : s.Alike T s') (hb : Beside T s s' p q) :
    (s.new p).2.Alike (T.add s.size s'.size) (s'.new q).2 where
  unique := by
    rintro _ _ _ _ (ha | ⟨rfl, rfl⟩) (hc | ⟨rfl, rfl⟩)
    · exact h.unique ha hc
    · exact iff_of_false (Nat.ne_of_lt (h.ltLeft ha)) (Nat.ne_of_lt (h.ltRight ha))
    · exact iff_of_false (Nat.ne_of_gt (h.ltLeft hc)) (Nat.ne_of_gt (h.ltRight hc))
    · exact iff_of_true rfl rfl
  ltLeft := by
    rw [size_new]
    rintro _ _ (ha | ⟨rfl, rfl⟩)
    · exact Nat.lt_succ_of_lt (h.ltLeft ha)
    · exact Nat.lt_succ_self _
  ltRight := by
    rw [size_new]
    rintro _ _ (ha | ⟨rfl, rfl⟩)
    · exact Nat.lt_succ_of_lt (h.ltRight ha)
    · exact Nat.lt_succ_self _
  bindings := by
    rintro _ _ (ha | ⟨rfl, rfl⟩)
    · rw [bindings_new, bindings_new, h.bindings ha]
    · rw [bindings_new, bindings_new, bindings_of_size_le s (Nat.le_refl _), bindings_of_size_le s' (Nat.le_refl _)]
  around := by
    rintro _ _ (ha | ⟨rfl, rfl⟩)
    · rw [parent?_new, parent?_new, if_neg (Nat.ne_of_lt (h.ltLeft ha)), if_neg (Nat.ne_of_lt (h.ltRight ha))]
      exact (h.around ha).widen (widens_new T s s' p q)
    · rw [parent?_new, parent?_new, if_pos rfl, if_pos rfl]
      exact hb.widen (widens_new T s s' p q)
  bareLeft a ha hbare := by
    rw [size_new] at ha
    rw [bindings_new]
    rcases Nat.lt_or_eq_of_le (Nat.le_of_lt_succ ha) with ha | rfl
    · exact h.bareLeft a ha fun b hT => hbare b (.inl hT)
    · exact absurd (.inr ⟨rfl, rfl⟩) (hbare s'.size)
  bareRight b hb hbare := by
    rw [size_new] at hb
    rw [bindings_new]
    rcases Nat.lt_or_eq_of_le (Nat.le_of_lt_succ hb) with hb | rfl
    · exact h.bareRight b hb fun a hT => hbare a (.inl hT)
    · exact absurd (.inr ⟨rfl, rfl⟩) (hbare s.size)
  olderLeft := h.olderLeft.new (h.lt_left hb)
  olderRight := h.olderRight.new (h.lt_right hb)

theorem widens_newLeft (T : Pairing) (s s' : Scopes α) (p : Option ScopeId) : Widens T s s' T (s.new p).2 s' :=
  ⟨s.extends_new p, .refl s', id, .inl⟩

theorem widens_newRight (T : Pairing) (s s' : Scopes α) (q : Option ScopeId) : Widens T s s' T s (s'.new q).2 :=
  ⟨.refl s, s'.extends_new q, id, .inl⟩

/-- A scope that is made on one side only has no partner. -/
theorem Alike.newLeft (h : s.Alike T s') (hp : ∀ a ∈ p, a < s.size) : (s.new p).2.Alike T s' :=
  { h with
    ltLeft := fun ha => by
      rw [size_new]
      exact Nat.lt_succ_of_lt (h.ltLeft ha)
    bindings := fun ha => by rw [bindings_new, h.bindings ha]
    around := fun ha => by
      rw [parent?_new, if_neg (Nat.ne_of_lt (h.ltLeft ha))]
      exact (h.around ha).widen (widens_newLeft T s s' p)
    bareLeft := fun a ha hbare => by
      rw [size_new] at ha
      rw [bindings_new]
      rcases Nat.lt_or_eq_of_le (Nat.le_of_lt_succ ha) with ha | rfl
      · exact h.bareLeft a ha hbare
      · exact s.bindings_of_size_le (Nat.le_refl _)
    olderLeft := h.olderLeft.new hp }

theorem Alike.newRight (h : s.Alike T s') (hq : ∀ b ∈ q, b < s'.size) : s.Alike T (s'.new q).2 :=
  (h.mirror.newLeft hq).mirror

theorem Alike.beside_newLeft (h : s.Alike T s') (hb : Beside T s s' p o') :
    Beside T (s.new p).2 s' (some s.size) o' := by
  refine .left ?_ (fun j hT => absurd (h.ltLeft hT) (Nat.lt_irrefl _)) ?_
  · rw [size_new]
    exact Nat.lt_succ_self _
  · rw [parent?_new, if_pos rfl]
    exact hb.widen (widens_newLeft T s s' p)

theorem Alike.beside_newRight (h : s.Alike T s') (hb : Beside T s s' o q) :
    Beside T s (s'.new q).2 o (some s'.size) := (h.mirror.beside_newLeft hb.mirror).mirror

end Scopes

namespace Machine

variable {T T₁ T₂ : Pairing} {m m' m₁ m₁' m₂ m₂' : Machine} {f f' : FunctionObject} {i j p q : ScopeId}

/-- A function on either side, declared alike and closed over paired scopes. -/
structure SameFunction (T : Pairing) (f f' : FunctionObject) : Prop where
  declaration : f'.declaration = f.declaration
  isInitializer : f'.isInitializer = f.isInitializer
  closure : T f.closure f'.closure

/-- Machines that differ in scopes that hold nothing, if in anything. Where they stand is not compared. -/
structure Alike (T : Pairing) (m m' : Machine) : Prop where
  scopes : m.scopes.Alike T m'.scopes
  functions : ∀ id : FunctionId, Option.Rel (SameFunction T) m.functions[id]? m'.functions[id]?
  classes : m'.classes = m.classes
  instances : m'.instances = m.instances
  natives : m'.natives = m.natives
  output : m'.output = m.output
  clock : m'.clock = m.clock
  readings : m'.readings = m.readings

/-- What becomes of a pairing while two runs go on. Both are back where they stood. -/
structure Widens (T : Pairing) (m m' : Machine) (T₁ : Pairing) (m₁ m₁' : Machine) : Prop where
  scopes : Scopes.Widens T m.scopes m'.scopes T₁ m₁.scopes m₁'.scopes
  left : m₁.current = m.current
  right : m₁'.current = m'.current

theorem Widens.refl (T : Pairing) (m m' : Machine) : Widens T m m' T m m' := ⟨.refl T _ _, rfl, rfl⟩

theorem Widens.trans (h : Widens T m m' T₁ m₁ m₁') (h' : Widens T₁ m₁ m₁' T₂ m₂ m₂') : Widens T m m' T₂ m₂ m₂' :=
  ⟨h.scopes.trans h'.scopes, h'.left.trans h.left, h'.right.trans h.right⟩

theorem SameFunction.mono (h : SameFunction T f f') (hT : ∀ i j, T i j → T₁ i j) : SameFunction T₁ f f' :=
  ⟨h.declaration, h.isInitializer, hT _ _ h.closure⟩

/-- A machine is like itself, each of its scopes paired with itself. -/
theorem Linked.alike (h : m.Linked) : m.Alike (.upTo m.scopes.size) m where
  scopes := {
    unique := by
      rintro i _ i' _ ⟨rfl, -⟩ ⟨rfl, -⟩
      rfl
    ltLeft := fun hT => hT.2
    ltRight := by
      rintro i _ ⟨rfl, hi⟩
      exact hi
    bindings := by
      rintro i _ ⟨rfl, -⟩
      rfl
    around := by
      rintro i _ ⟨rfl, hi⟩
      cases hp : m.scopes.parent? i with
      | none => exact .outside
      | some p => exact .pair ⟨rfl, Nat.lt_trans (h.older i hi p hp) hi⟩
    bareLeft := fun i hi hbare => absurd ⟨rfl, hi⟩ (hbare i)
    bareRight := fun i hi hbare => absurd ⟨rfl, hi⟩ (hbare i)
    olderLeft := h.older
    olderRight := h.older }
  functions id := by
    cases hf : m.functions[id]? with
    | none => exact .none
    | some f => exact .some ⟨rfl, rfl, rfl, h.closures id f hf⟩
  classes := rfl
  instances := rfl
  natives := rfl
  output := rfl
  clock := rfl
  readings := rfl

/-! What programs see of alike machines -/

theorem Alike.size_functions (h : m.Alike T m') : m'.functions.size = m.functions.size := by
  have hnone (id : Nat) : m.functions.size ≤ id ↔ m'.functions.size ≤ id := by
    rw [← Array.getElem?_eq_none_iff, ← Array.getElem?_eq_none_iff]
    have hf := h.functions id
    generalize m.functions[id]? = r, m'.functions[id]? = r' at hf
    cases hf <;> simp
  exact Nat.le_antisymm ((hnone _).1 (Nat.le_refl _)) ((hnone _).2 (Nat.le_refl _))

theorem Alike.map_functions (h : m.Alike T m') (id : FunctionId) {β : Type} (g : Declaration → β) :
    (m'.functions[id]?.map fun f => g f.declaration) = m.functions[id]?.map fun f => g f.declaration := by
  have hf := h.functions id
  generalize m.functions[id]? = r, m'.functions[id]? = r' at hf
  cases hf with
  | none => rfl
  | some hf => simp only [Option.map_some, hf.declaration]

theorem Alike.findMethod?_eq (h : m.Alike T m') (cls : ClassId) (name : String) :
    m'.findMethod? cls name = m.findMethod? cls name := findMethod?_congr h.classes cls name

theorem Alike.display_eq (h : m.Alike T m') (v : Value) : m'.display v = m.display v := by
  cases v with
  | function id => simp only [display, h.map_functions id fun d => d.name.lexeme]
  | «class» | «instance» => simp only [display, className, h.classes, h.instances]
  | _ => rfl

theorem Alike.arity?_eq (h : m.Alike T m') (v : Value) : m'.arity? v = m.arity? v := by
  cases v with
  | function id => exact h.map_functions id fun d => (d.params.length : Int)
  | «class» id =>
    simp only [arity?, h.findMethod?_eq]
    cases m.findMethod? id "init" with
    | none => rfl
    | some f =>
      have hparams := congrArg (fun o => o.elim 0 fun n => n) (h.map_functions f fun d => (d.params.length : Int))
      rw [Option.elim_map, Option.elim_map] at hparams
      exact congrArg some hparams
  | native id => simp only [arity?, h.natives]
  | _ => rfl

/-! Operations -/

theorem Alike.define (h : m.Alike T m') (hT : T i j) (name : String) (v : Value) :
    (m.define i name v).Alike T (m'.define j name v) := { h with scopes := h.scopes.define hT name v }

theorem widens_define (T : Pairing) (m m' : Machine) (i j : ScopeId) (name : String) (v : Value) :
    Widens T m m' T (m.define i name v) (m'.define j name v) := ⟨Scopes.widens_define T _ _ i j name v, rfl, rfl⟩

theorem Alike.foldl_define (hT : T i j) (ps : List (Token × Value)) (h : m.Alike T m') :
    (ps.foldl (fun m p => m.define i p.1.lexeme p.2) m).Alike T
      (ps.foldl (fun m p => m.define j p.1.lexeme p.2) m') := by
  induction ps generalizing m m' with
  | nil => exact h
  | cons p ps ih => exact ih (h.define hT p.1.lexeme p.2)

theorem widens_foldl_define (T : Pairing) (i j : ScopeId) (ps : List (Token × Value)) (m m' : Machine) :
    Widens T m m' T (ps.foldl (fun m p => m.define i p.1.lexeme p.2) m)
      (ps.foldl (fun m p => m.define j p.1.lexeme p.2) m') := by
  induction ps generalizing m m' with
  | nil => exact .refl T m m'
  | cons p ps ih => exact (widens_define T m m' i j p.1.lexeme p.2).trans (ih _ _)

theorem Alike.newScope (h : m.Alike T m') (hb : Scopes.Beside T m.scopes m'.scopes (some p) (some q)) :
    (m.newScope p).2.Alike (T.add m.scopes.size m'.scopes.size) (m'.newScope q).2 :=
  { h with
    scopes := h.scopes.new hb
    functions := fun id => by
      show Option.Rel _ m.functions[id]? m'.functions[id]?
      have hf := h.functions id
      generalize m.functions[id]? = r, m'.functions[id]? = r' at hf
      cases hf with
      | none => exact .none
      | some hf => exact .some (hf.mono fun _ _ => .inl) }

theorem widens_newScope (T : Pairing) (m m' : Machine) (p q : ScopeId) :
    Widens T m m' (T.add m.scopes.size m'.scopes.size) (m.newScope p).2 (m'.newScope q).2 :=
  ⟨Scopes.widens_new T _ _ (some p) (some q), rfl, rfl⟩

theorem Alike.newScopeLeft (h : m.Alike T m') (hp : p < m.scopes.size) : (m.newScope p).2.Alike T m' :=
  { h with scopes := h.scopes.newLeft (by simpa using hp) }

theorem Alike.newScopeRight (h : m.Alike T m') (hq : q < m'.scopes.size) : m.Alike T (m'.newScope q).2 :=
  { h with scopes := h.scopes.newRight (by simpa using hq) }

theorem widens_newScopeLeft (T : Pairing) (m m' : Machine) (p : ScopeId) : Widens T m m' T (m.newScope p).2 m' :=
  ⟨Scopes.widens_newLeft T _ _ (some p), rfl, rfl⟩

theorem widens_newScopeRight (T : Pairing) (m m' : Machine) (q : ScopeId) : Widens T m m' T m (m'.newScope q).2 :=
  ⟨Scopes.widens_newRight T _ _ (some q), rfl, rfl⟩

theorem Alike.newFunction (h : m.Alike T m') (hf : SameFunction T f f') :
    (m.newFunction f).2.Alike T (m'.newFunction f').2 :=
  { h with
    functions := fun id => by
      simp only [Machine.newFunction, Array.getElem?_push, h.size_functions]
      split
      · exact .some hf
      · exact h.functions id }

theorem Alike.newClass (h : m.Alike T m') (c : ClassObject) : (m.newClass c).2.Alike T (m'.newClass c).2 :=
  { h with classes := by simp only [Machine.newClass, h.classes] }

theorem Alike.newInstance (h : m.Alike T m') (cls : ClassId) : (m.newInstance cls).2.Alike T (m'.newInstance cls).2 :=
  { h with instances := by simp only [Machine.newInstance, h.instances] }

theorem Alike.setField (h : m.Alike T m') (object : InstanceId) (name : String) (v : Value) :
    (m.setField object name v).Alike T (m'.setField object name v) :=
  { h with instances := by simp only [Machine.setField, h.instances] }

theorem Alike.write (h : m.Alike T m') (text : String) : (m.write text).Alike T (m'.write text) :=
  { h with output := by simp only [Machine.write, h.output] }

theorem Alike.tick (h : m.Alike T m') :
    { m with readings := m.readings + 1 }.Alike T { m' with readings := m'.readings + 1 } :=
  { h with readings := by simp only [h.readings] }

/-- Where machines stand makes no difference to what they hold. -/
theorem Alike.move (h : m.Alike T m') (i j : ScopeId) : { m with current := i }.Alike T { m' with current := j } :=
  { h with }

end Machine

end Lox
