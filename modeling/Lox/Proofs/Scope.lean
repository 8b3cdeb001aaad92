import Lox.Proofs.Machine.Links
import Lox.Evaluation
import Mathlib.Data.List.Nodup

/-! Reading and writing in scopes. Scopes share the ones around them, so what is written in one is read from every
scope that has it as the nearest owner of the name, and from no other. Nothing else is read differently, and the
way by the name and the way by the distance come to the same. -/

namespace Lox
namespace Scopes

variable {α : Type} {s s' : Scopes α} {w e i : ScopeId} {name n : String} {v : α}

/-- The scopes that come about by making scopes, each inside one that there is or inside none, and by writing. -/
inductive Forest : Scopes α → Prop where
  | empty : Forest empty
  | new {s : Scopes α} {parent : Option ScopeId} : Forest s → (∀ p ∈ parent, p < s.size) →
      Forest (s.new parent).2
  | define {s : Scopes α} (id : ScopeId) (name : String) (v : α) : Forest s → Forest (s.define id name v)
  | assign {s s' : Scopes α} {id : ScopeId} {name : String} {v : α} : Forest s →
      s.assign? id name v = some s' → Forest s'
  | assignAt {s s' : Scopes α} {id : ScopeId} {distance : Nat} {name : String} {v : α} : Forest s →
      s.assignAt? id distance name v = some s' → Forest s'

/-- Whether all that is new is `v` under `name` in the scope `w`: one binding, and what is read by way of it. -/
structure Written (s s' : Scopes α) (w : ScopeId) (name : String) (v : α) : Prop where
  size : s'.size = s.size
  parents : ∀ i, s'.parent? i = s.parent? i
  binding : ∀ i n, (s'.bindings i).get? n = if i = w ∧ n = name then some v else (s.bindings i).get? n
  reads : ∀ i n, s'.get? i n = if n = name ∧ s'.owner? i n = some w then some v else s.get? i n

/-! The way outward -/

theorem Older.define (h : s.Older) (w : ScopeId) (name : String) (v : α) : (s.define w name v).Older := by
  intro i hi p hp
  rw [size_define] at hi
  rw [parent?_define] at hp
  exact h i hi p hp

theorem Older.new (h : s.Older) {parent : Option ScopeId} (hparent : ∀ p ∈ parent, p < s.size) :
    (s.new parent).2.Older := by
  intro i hi p hp
  rw [size_new] at hi
  rw [parent?_new] at hp
  split at hp
  · next heq =>
    rw [heq]
    exact hparent p hp
  · next hne => exact h i (Nat.lt_of_le_of_ne (Nat.le_of_lt_succ hi) hne) p hp

theorem Forest.older (h : s.Forest) : s.Older := by
  induction h with
  | empty => exact fun i hi => absurd hi (Nat.not_lt_zero i)
  | new _ hparent ih => exact ih.new hparent
  | define id name v _ ih => exact ih.define id name v
  | assign _ hs ih =>
    obtain ⟨w, -, rfl⟩ := Option.map_eq_some_iff.1 hs
    exact ih.define w _ _
  | assignAt _ hs ih =>
    obtain ⟨w, -, rfl⟩ := Option.map_eq_some_iff.1 hs
    exact ih.define w _ _

/-- The scopes on the way outward are each older than the one before, so none comes twice. -/
theorem nodup_chain (s : Scopes α) (e : ScopeId) : (s.chain e).Nodup := by
  fun_induction s.chain e with
  | case1 e ih =>
    split
    · exact List.nodup_singleton e
    · next p _ =>
      split
      · next hlt => exact List.nodup_cons.2 ⟨fun hmem => Nat.not_le_of_lt hlt (s.le_of_mem_chain hmem), ih p hlt⟩
      · exact List.nodup_singleton e

/-- There is no scope further out than there are scopes around. -/
theorem ancestor?_eq_none_iff (s : Scopes α) (e : ScopeId) (distance : Nat) :
    s.ancestor? e distance = none ↔ s.depth e < distance := by
  rw [ancestor?, List.getElem?_eq_none_iff, length_chain]
  exact Nat.succ_le_iff

/-- The nearest owner of a name lies some number of steps outward, and no other number of them. -/
theorem exists_distance (h : s.owner? e name = some w) :
    ∃ distance, ∀ k, s.ancestor? e k = some w ↔ k = distance := by
  obtain ⟨distance, hdistance⟩ := List.getElem?_of_mem (List.mem_of_find?_eq_some h)
  refine ⟨distance, fun k => ⟨fun hk => ?_, fun hk => hk ▸ hdistance⟩⟩
  have hlt : k < (s.chain e).length := (List.getElem?_eq_some_iff.1 hk).1
  exact (List.getElem?_inj hlt (s.nodup_chain e)).1 (hk.trans hdistance.symm)

/-! Writing -/

theorem find?_eq_of_ne {l : List ScopeId} {p q : ScopeId → Bool} (h : ∀ i, i ≠ w → q i = p i) (hw : q w = true)
    (hne : l.find? q ≠ some w) : l.find? q = l.find? p := by
  induction l with
  | nil => rfl
  | cons i l ih =>
    rw [List.find?_cons] at hne ⊢
    rw [List.find?_cons]
    cases hq : q i with
    | true =>
      rw [hq] at hne
      have hi : i ≠ w := fun heq => hne (congrArg some heq)
      rw [← h i hi, hq]
    | false =>
      rw [hq] at hne
      have hi : i ≠ w := fun heq => by simp [heq, hw] at hq
      rw [← h i hi, hq]
      exact ih hne

/-- Where a name was found before it is found again, unless it is found in the scope that has been written. -/
theorem owner?_define (hw : w < s.size) (h : n = name → (s.define w name v).owner? e n ≠ some w) :
    (s.define w name v).owner? e n = s.owner? e n := by
  have howns (i : ScopeId) (hi : ¬ (i = w ∧ n = name)) :
      ((s.define w name v).bindings i).owns n = (s.bindings i).owns n :=
    Bool.eq_iff_iff.2 ((s.owns_define w i name n v hw).trans (or_iff_left hi))
  unfold owner? at h ⊢
  rw [chain_define] at h ⊢
  by_cases hn : n = name
  · have hwritten : ((s.define w name v).bindings w).owns n := (s.owns_define w w name n v hw).2 (.inr ⟨rfl, hn⟩)
    exact find?_eq_of_ne (fun i hi => howns i fun heq => hi heq.1) hwritten (h hn)
  · exact congrArg (List.find? · _) (funext fun i => howns i fun heq => hn heq.2)

theorem written_define (hw : w < s.size) (name : String) (v : α) : s.Written (s.define w name v) w name v where
  size := s.size_define w name v
  parents i := s.parent?_define w i name v
  binding i n := by
    rw [s.get?_define w i name n v hw]
    exact if_congr (and_congr eq_comm eq_comm) rfl rfl
  reads i n := by
    unfold get?
    split
    · next h => rw [h.2, Option.bind_some, s.get?_define w w name n v hw, if_pos ⟨rfl, h.1.symm⟩]
    · next h =>
      have howner := owner?_define (e := i) (n := n) hw fun hn howner => h ⟨hn, howner⟩
      rw [howner]
      refine Option.bind_congr fun j hj => ?_
      rw [s.get?_define w j name n v hw, if_neg]
      rintro ⟨rfl, rfl⟩
      exact h ⟨rfl, howner.trans hj⟩

/-- An assignment makes no scope the owner of a name that was not. -/
theorem owner?_define_of_owns (h : (s.bindings w).owns name) (i : ScopeId) (n : String) :
    (s.define w name v).owner? i n = s.owner? i n := by
  have hw : w < s.size := s.lt_size_of_owns h
  unfold owner?
  rw [chain_define]
  refine congrArg (List.find? · _) (funext fun j => Bool.eq_iff_iff.2 ?_)
  rw [s.owns_define w j name n v hw]
  exact or_iff_left_of_imp fun heq => by rw [heq.1, heq.2]; exact h

/-! From one scope -/

/-- How the name `t` is read and written from the scope `e`. The nearest owner is the first that a search outward
comes to, and `climb` goes outward by the distance. -/
structure Accessed (s : Scopes Value) (e : ScopeId) (t : Token) (v : Value) : Prop where
  defined : s.Written (s.define e t.lexeme v) e t.lexeme v
  nearest : ∀ r, Search s.parent? (fun i => (s.bindings i).owns t.lexeme) e r ↔ r = s.owner? e t.lexeme
  owned : ∀ w, s.owner? e t.lexeme = some w →
    (∃ distance, ∀ k, climb s.parent? k e = some w ↔ k = distance) ∧
    (∃ v', (s.bindings w).get? t.lexeme = some v' ∧ s.get? e t.lexeme = some v' ∧
      ∀ k, climb s.parent? k e = some w → s.getAt? e k t.lexeme = some (some v')) ∧
    ∃ s', s.assign? e t.lexeme v = some s' ∧ s.Written s' w t.lexeme v ∧ (∀ i n, s'.owner? i n = s.owner? i n) ∧
      ∀ k, climb s.parent? k e = some w → s.assignAt? e k t.lexeme v = some s'
  unowned : s.owner? e t.lexeme = none → s.get? e t.lexeme = none ∧ s.assign? e t.lexeme v = none ∧
    ∀ m : Machine, m.scopes = s → m.current = e →
      Run.lookUp t m = .error (.failed ⟨t, .undefinedVariable t.lexeme⟩) m ∧
      Run.assign t v m = .error (.failed ⟨t, .undefinedVariable t.lexeme⟩) m
  around : ∀ way, Way s.parent? e way → way.length = s.depth e + 1
  distant : ∀ k, (climb s.parent? k e = none ↔ s.depth e < k) ∧
    match climb s.parent? k e with
    | some w => s.getAt? e k t.lexeme = some ((s.bindings w).get? t.lexeme) ∧
        ∃ s', s.assignAt? e k t.lexeme v = some s' ∧ s.Written s' w t.lexeme v
    | none => s.getAt? e k t.lexeme = none ∧ s.assignAt? e k t.lexeme v = none ∧
        ∀ m : Machine, m.scopes = s → Run.readAt e k t.lexeme m = .error (.stuck (.noAncestor k)) m

theorem Older.climb_eq (h : s.Older) (he : e < s.size) (k : Nat) : climb s.parent? k e = s.ancestor? e k :=
  (h.way_chain he).climb_eq k

theorem lt_size_of_ancestor? {k : Nat} (he : e < s.size) (h : s.ancestor? e k = some w) : w < s.size :=
  Nat.lt_of_le_of_lt (s.le_of_mem_chain (List.mem_of_getElem? h)) he

/-- Whatever was made and written before, a write shows where the name is looked for and finds the scope that was
written, and nowhere else; the nearest owner is read and assigned alike by its name and by its distance; a name
that no scope outward owns fails and changes nothing, as does a distance that leads out of the globals. -/
theorem Forest.accessed {s : Scopes Value} (h : s.Forest) {e : ScopeId} (he : e < s.size) (t : Token) (v : Value) :
    s.Accessed e t v where
  defined := written_define he t.lexeme v
  nearest r := (h.older.way_chain he).search_iff _ r
  owned w hw := by
    have howns : (s.bindings w).owns t.lexeme := s.owns_of_owner? hw
    obtain ⟨v', hv'⟩ := Option.isSome_iff_exists.1 howns
    obtain ⟨distance, hdistance⟩ := exists_distance hw
    refine ⟨⟨distance, fun k => ?_⟩, ⟨v', hv', ?_, fun k hk => ?_⟩, s.define w t.lexeme v, ?_, ?_, ?_, fun k hk => ?_⟩
    · rw [h.older.climb_eq he]
      exact hdistance k
    · rw [get?, hw]
      exact hv'
    · rw [h.older.climb_eq he] at hk
      rw [getAt?, hk]
      exact congrArg some hv'
    · rw [assign?, hw]
      rfl
    · exact written_define (s.lt_size_of_owns howns) t.lexeme v
    · exact owner?_define_of_owns howns
    · rw [h.older.climb_eq he] at hk
      rw [assignAt?, hk]
      rfl
  unowned hnone := by
    have hget : s.get? e t.lexeme = none := by rw [get?, hnone]; rfl
    have hassign : s.assign? e t.lexeme v = none := by rw [assign?, hnone]; rfl
    refine ⟨hget, hassign, ?_⟩
    rintro m rfl rfl
    rw [Run.assign_eq, Run.lookUp, hget, hassign]
    exact ⟨rfl, rfl⟩
  around way hway := by
    obtain rfl := (h.older.way_chain he).unique hway
    exact s.length_chain e
  distant k := by
    rw [h.older.climb_eq he]
    refine ⟨s.ancestor?_eq_none_iff e k, ?_⟩
    cases hk : s.ancestor? e k with
    | some w =>
      refine ⟨by rw [getAt?, hk]; rfl, s.define w t.lexeme v, by rw [assignAt?, hk]; rfl, ?_⟩
      exact written_define (lt_size_of_ancestor? he hk) t.lexeme v
    | none =>
      have hget : s.getAt? e k t.lexeme = none := by rw [getAt?, hk]; rfl
      refine ⟨hget, by rw [assignAt?, hk]; rfl, ?_⟩
      rintro m rfl
      rw [Run.readAt, hget]

/-- Globals with `a`, a scope in them with an `a` of its own, and one in that with none. -/
def shadowed : Scopes Value :=
  let s := (empty.new none).2.define 0 "a" (.bool false)
  let s := (s.new (some 0)).2.define 1 "a" (.bool true)
  (s.new (some 1)).2

theorem forest_shadowed : shadowed.Forest :=
  .new (.define 1 "a" _ (.new (.define 0 "a" _ (.new .empty nofun)) (by simp [size, define, new, empty])))
    (by simp [size, define, new, empty])

/-- From the innermost scope `a` is that of the scope around, whose value is overwritten there. -/
theorem accessed_shadowed :
    ∃ s', shadowed.assign? 2 "a" .nil = some s' ∧ shadowed.Written s' 1 "a" .nil ∧
      s'.get? 2 "a" = some .nil ∧ s'.get? 0 "a" = some (.bool false) := by
  have haccessed := forest_shadowed.accessed (e := 2) (by decide) ⟨.identifier, "a", .nil, 1⟩ .nil
  obtain ⟨-, -, s', hs', hwritten, howner, -⟩ := haccessed.owned 1 (by decide +kernel)
  refine ⟨s', hs', hwritten, ?_, ?_⟩
  · have hinner : s'.owner? 2 "a" = some 1 := (howner 2 "a").trans (by decide +kernel)
    rw [hwritten.reads, if_pos ⟨rfl, hinner⟩]
  · have houter : shadowed.owner? 0 "a" = some 0 := by decide +kernel
    rw [hwritten.reads, howner, if_neg (by simp [houter]), get?, houter]
    rfl

end Scopes
end Lox
