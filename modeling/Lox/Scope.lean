import Lox.Bindings
import Lox.Text.Quoted

/-! Scopes. A scope owns names and lies inside its parent, so names are looked up along the chain from a
scope outward. Scopes are never removed, and the number of a scope is its place in the order of
creation. -/

namespace Lox

abbrev ScopeId := Nat

structure Scope (α : Type) where
  parent : Option ScopeId
  bindings : Bindings α

structure Scopes (α : Type) where
  table : Array (Scope α)

namespace Scopes

variable {α : Type}

def empty : Scopes α := ⟨#[]⟩

/-- A new scope without names, and its number. -/
def new (s : Scopes α) (parent : Option ScopeId) : ScopeId × Scopes α :=
  (s.table.size, ⟨s.table.push ⟨parent, []⟩⟩)

def parent? (s : Scopes α) (id : ScopeId) : Option ScopeId := s.table[id]?.bind Scope.parent

def bindings (s : Scopes α) (id : ScopeId) : Bindings α := (s.table[id]?.map Scope.bindings).getD []

/-- The scopes from `id` outward. A parent is older than its child, so the chain ends. -/
def chain (s : Scopes α) (id : ScopeId) : List ScopeId :=
  id :: match s.parent? id with
    | none => []
    | some p => if p < id then s.chain p else []
termination_by id

/-- The nearest scope outward from `id` that owns `name`. -/
def owner? (s : Scopes α) (id : ScopeId) (name : String) : Option ScopeId :=
  (s.chain id).find? fun i => (s.bindings i).owns name

/-- The scope `distance` steps outward from `id`. -/
def ancestor? (s : Scopes α) (id : ScopeId) (distance : Nat) : Option ScopeId := (s.chain id)[distance]?

def define (s : Scopes α) (id : ScopeId) (name : String) (v : α) : Scopes α :=
  ⟨s.table.modify id fun scope => { scope with bindings := scope.bindings.set name v }⟩

theorem parent?_define (s : Scopes α) (id i : ScopeId) (name : String) (v : α) :
    (s.define id name v).parent? i = s.parent? i := by
  simp only [parent?, define, Array.getElem?_modify]
  split
  · cases s.table[i]? <;> rfl
  · rfl

theorem chain_define (s : Scopes α) (id i : ScopeId) (name : String) (v : α) :
    (s.define id name v).chain i = s.chain i := by
  fun_induction s.chain i with
  | case1 i ih =>
    rw [chain, parent?_define]
    split
    · rfl
    · split
      · next hp => rw [ih _ hp]
      · rfl

theorem bindings_define (s : Scopes α) (id i : ScopeId) (name : String) (v : α) :
    (s.define id name v).bindings i =
      if id = i ∧ i < s.table.size then (s.bindings i).set name v else s.bindings i := by
  simp only [bindings, define, Array.getElem?_modify]
  by_cases hi : i < s.table.size
  · by_cases h : id = i <;> simp [h, hi]
  · simp [hi]

def get? (s : Scopes α) (id : ScopeId) (name : String) : Option α :=
  (s.owner? id name).bind fun i => (s.bindings i).get? name

/-- Overwrites the nearest binding of `name`. There is no result when no scope outward owns it. -/
def assign? (s : Scopes α) (id : ScopeId) (name : String) (v : α) : Option (Scopes α) :=
  (s.owner? id name).map fun i => s.define i name v

/-- What the scope `distance` steps outward holds under `name`, if there is such a scope. -/
def getAt? (s : Scopes α) (id : ScopeId) (distance : Nat) (name : String) : Option (Option α) :=
  (s.ancestor? id distance).map fun i => (s.bindings i).get? name

def assignAt? (s : Scopes α) (id : ScopeId) (distance : Nat) (name : String) (v : α) :
    Option (Scopes α) :=
  (s.ancestor? id distance).map fun i => s.define i name v

/-- The number of scopes around `id`. -/
def depth (s : Scopes α) (id : ScopeId) : Nat := (s.chain id).length - 1

def describe (s : Scopes α) (id : ScopeId) : String :=
  let names := ", ".intercalate ((s.bindings id).sorted.names.map Text.quoted)
  s!"Environment(names=[{names}], depth={s.depth id})"

def noAncestorMessage (distance : Int) : String := s!"No scope {distance} levels out"

end Scopes

end Lox
