/-! Names with their values, in the order in which the names came up. -/

namespace Lox

abbrev Bindings (α : Type) := List (String × α)

namespace Bindings

variable {α : Type}

def get? : Bindings α → String → Option α
  | [], _ => none
  | (m, v) :: rest, name => if m = name then some v else get? rest name

def owns (b : Bindings α) (name : String) : Bool := (b.get? name).isSome

/-- Gives `name` a value, in place of one that it has. -/
def set : Bindings α → String → α → Bindings α
  | [], name, v => [(name, v)]
  | (m, w) :: rest, name, v => if m = name then (m, v) :: rest else (m, w) :: set rest name v

def names (b : Bindings α) : List String := b.map Prod.fst

/-- The bindings by name. -/
def sorted (b : Bindings α) : Bindings α := b.mergeSort fun x y => decide (x.1 ≤ y.1)

theorem get?_set (b : Bindings α) (n m : String) (v : α) :
    (b.set n v).get? m = if n = m then some v else b.get? m := by
  induction b with
  | nil => rfl
  | cons p rest ih =>
    by_cases hk : p.1 = n
    · by_cases hm : p.1 = m <;> simp_all [set, get?]
    · by_cases hm : p.1 = m
      · subst hm; simp [set, get?, hk, Ne.symm hk]
      · simp [set, get?, hk, hm, ih]

theorem owns_set (b : Bindings α) (n m : String) (v : α) :
    (b.set n v).owns m = (decide (n = m) || b.owns m) := by
  unfold owns
  rw [get?_set]
  by_cases h : n = m <;> simp [h]

end Bindings

end Lox
