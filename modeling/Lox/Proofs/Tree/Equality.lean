import Lox.Proofs.Decimal.Sign
import Lox.Proofs.Tree.Written
import Lox.Tree.Equality

/-! Equality of the outlines of parsed trees as plain data. It counts `true` as one and `false` as zero, so that two
outlines may be equal and not the same. They are the same if the booleans in them are at the same places. -/

namespace Lox

/-! Constants -/

namespace Literal

variable {v w : Literal}

def isBool : Literal → Bool
  | bool _ => true
  | _ => false

def Unsigned (v : Literal) : Prop := ∀ x, v = number x → Number.isNegative x = false

theorem same_self (h : ∀ x, v = number x → x.isFinite) : v.same v := by
  cases v with
  | nil => rfl
  | bool b => exact beq_self_eq_true b
  | number x =>
    have hnan := Number.isNaN_of_isFinite (h x rfl)
    rw [Float.isNaN_eq_decide_eq_nan, decide_eq_false_iff_not] at hnan
    exact Float.beq_self_iff.2 hnan
  | string s => exact beq_self_eq_true s

/-- Equal constants are the same, unless one is a boolean and the other a number. -/
theorem eq_of_same (hv : v.Unsigned) (hw : w.Unsigned) (h : v.same w) (hb : v.isBool = w.isBool) : v = w := by
  cases v with
  | nil =>
    cases w with
    | nil => rfl
    | _ => cases h
  | bool b =>
    cases w with
    | bool c => exact congrArg bool (eq_of_beq h)
    | _ => cases hb
  | number x =>
    cases w with
    | number y => exact congrArg number (Number.eq_of_beq_unsigned (hv x rfl) (hw y rfl) h)
    | bool c => cases hb
    | _ => cases h
  | string s =>
    cases w with
    | string t => exact congrArg string (eq_of_beq h)
    | _ => cases h

end Literal

/-! Outlines -/

namespace Outline

mutual

/-- For each constant in an outline, in the order of writing, whether it is a boolean. -/
def booleans : Outline → List Bool
  | constant v => [v.isBool]
  | list items => itemBooleans items
  | node _ fields => fieldBooleans fields
  | _ => []

def itemBooleans : List Outline → List Bool
  | [] => []
  | o :: os => o.booleans ++ itemBooleans os

def fieldBooleans : List (String × Outline) → List Bool
  | [] => []
  | (_, o) :: fields => o.booleans ++ fieldBooleans fields

end

/-- Whether the constants in an outline have no sign and stand in nodes of their own. -/
inductive Tidy : Outline → Prop where
  | absent : Tidy absent
  | lexeme (text : String) : Tidy (lexeme text)
  | list {os : List Outline} : (∀ o ∈ os, Tidy o) → Tidy (list os)
  | literal {v : Literal} : v.Unsigned → Tidy (node "literal" [("value", constant v)])
  | node {kind : String} {fields : List (String × Outline)} : kind ≠ "literal" → (∀ f ∈ fields, Tidy f.2) →
      Tidy (node kind fields)

mutual

theorem same_self : ∀ o : Outline, (∀ x ∈ o.numbers, x.isFinite) → o.same o
  | absent, _ => rfl
  | lexeme text, _ => beq_self_eq_true text
  | constant v, h => Literal.same_self fun x hx => h x (by rw [hx]; exact List.mem_singleton_self x)
  | list os, h => sameItems_self os h
  | node kind fields, h => by rw [same, beq_self_eq_true, sameFields_self fields h, Bool.and_self]

theorem sameItems_self : ∀ os : List Outline, (∀ x ∈ numbersAll os, x.isFinite) → sameItems os os
  | [], _ => rfl
  | o :: os, h => by
    obtain ⟨ho, hos⟩ := List.forall_mem_append.1 h
    rw [sameItems, same_self o ho, sameItems_self os hos, Bool.and_self]

theorem sameFields_self : ∀ fields : List (String × Outline), (∀ x ∈ fieldNumbers fields, x.isFinite) →
    sameFields fields fields
  | [], _ => rfl
  | (name, o) :: fields, h => by
    obtain ⟨ho, hfields⟩ := List.forall_mem_append.1 h
    rw [sameFields, beq_self_eq_true, same_self o ho, sameFields_self fields hfields, Bool.and_self, Bool.and_self]

end

/-- Whether an outline is told from every other by equality and by the places of the booleans. What follows in the
list of these is left over. -/
def IsTold (o : Outline) : Prop := ∀ p : Outline, p.Tidy → o.same p → ∀ bs bs' : List Bool,
  o.booleans ++ bs = p.booleans ++ bs' → o = p ∧ bs = bs'

variable {o p : Outline} {os : List Outline} {bs bs' : List Bool}

theorem eq_of_sameItems (ho : ∀ o ∈ os, o.IsTold) : ∀ {ps : List Outline}, (∀ p ∈ ps, p.Tidy) → sameItems os ps →
    ∀ {bs bs' : List Bool}, itemBooleans os ++ bs = itemBooleans ps ++ bs' → os = ps ∧ bs = bs' := by
  induction os with
  | nil =>
    intro ps _ h bs bs' hbs
    cases ps with
    | nil => exact ⟨rfl, hbs⟩
    | cons => cases h
  | cons o os ih =>
    intro ps hp h bs bs' hbs
    cases ps with
    | nil => cases h
    | cons p ps =>
      rw [sameItems, Bool.and_eq_true] at h
      rw [itemBooleans, itemBooleans, List.append_assoc, List.append_assoc] at hbs
      obtain ⟨ho, hos⟩ := List.forall_mem_cons.1 ho
      obtain ⟨hp, hps⟩ := List.forall_mem_cons.1 hp
      obtain ⟨rfl, hrest⟩ := ho p hp h.1 _ _ hbs
      obtain ⟨rfl, rfl⟩ := ih hos hps h.2 hrest
      exact ⟨rfl, rfl⟩

/-! Fields, which are items with names -/

variable {fields fields' : List (String × Outline)}

theorem fieldBooleans_eq (fields : List (String × Outline)) :
    fieldBooleans fields = itemBooleans (fields.map Prod.snd) := by
  induction fields with
  | nil => rfl
  | cons f fields ih => rw [fieldBooleans, ih, List.map_cons, itemBooleans]

theorem sameItems_of_sameFields : ∀ {fields fields' : List (String × Outline)}, sameFields fields fields' →
    fields.map Prod.fst = fields'.map Prod.fst ∧ sameItems (fields.map Prod.snd) (fields'.map Prod.snd)
  | [], [], _ => ⟨rfl, rfl⟩
  | f :: fields, f' :: fields', h => by
    rw [sameFields, Bool.and_eq_true, Bool.and_eq_true] at h
    obtain ⟨⟨hname, hvalue⟩, hrest⟩ := h
    obtain ⟨hnames, hvalues⟩ := sameItems_of_sameFields hrest
    rw [List.map_cons, List.map_cons, List.map_cons, List.map_cons, sameItems, eq_of_beq hname, hnames, hvalue, hvalues]
    exact ⟨rfl, rfl⟩

theorem eq_of_sameFields (ho : ∀ f ∈ fields, f.2.IsTold) (hp : ∀ f ∈ fields', f.2.Tidy)
    (h : sameFields fields fields') (hbs : fieldBooleans fields ++ bs = fieldBooleans fields' ++ bs') :
    fields = fields' ∧ bs = bs' := by
  obtain ⟨hnames, hvalues⟩ := sameItems_of_sameFields h
  rw [fieldBooleans_eq, fieldBooleans_eq] at hbs
  obtain ⟨heq, hrest⟩ := eq_of_sameItems (List.forall_mem_map.2 ho) (List.forall_mem_map.2 hp) hvalues hbs
  refine ⟨?_, hrest⟩
  rw [← List.zip_unzip fields, ← List.zip_unzip fields', List.unzip_eq_map, List.unzip_eq_map, hnames, heq]

theorem Tidy.isTold (ho : o.Tidy) : o.IsTold := by
  induction ho with
  | absent =>
    intro p hp h bs bs' hbs
    cases hp with
    | absent => exact ⟨rfl, hbs⟩
    | _ => cases h
  | lexeme text =>
    intro p hp h bs bs' hbs
    cases hp with
    | lexeme text' => exact ⟨congrArg Outline.lexeme (eq_of_beq h), hbs⟩
    | _ => cases h
  | list _ ih =>
    intro p hp h bs bs' hbs
    cases hp with
    | list hps => exact (eq_of_sameItems ih hps h hbs).imp_left (congrArg Outline.list)
    | _ => cases h
  | @literal v hv =>
    intro p hp h bs bs' hbs
    cases hp with
    | @literal w hw =>
      have hvalue : v.same w := by simpa [same, sameFields, constant?] using h
      obtain ⟨hb, hrest⟩ := List.cons.inj hbs
      rw [Literal.eq_of_same hv hw hvalue hb]
      exact ⟨rfl, hrest⟩
    | node hkind =>
      rw [same, Bool.and_eq_true] at h
      exact absurd (eq_of_beq h.1).symm hkind
    | _ => cases h
  | node hkind _ ih =>
    intro p hp h bs bs' hbs
    cases hp with
    | literal =>
      rw [same, Bool.and_eq_true] at h
      exact absurd (eq_of_beq h.1) hkind
    | node _ hfields =>
      rw [same, Bool.and_eq_true] at h
      obtain ⟨hf, hrest⟩ := eq_of_sameFields ih hfields h.2 hbs
      rw [eq_of_beq h.1, hf]
      exact ⟨rfl, hrest⟩
    | _ => cases h

/-- Tidy outlines are the same if and only if they are equal and have their booleans at the same places. -/
theorem Tidy.same_iff (ho : o.Tidy) (hp : p.Tidy) (hx : ∀ x ∈ o.numbers, x.isFinite) :
    o.same p ∧ o.booleans = p.booleans ↔ o = p := by
  constructor
  · rintro ⟨hsame, hb⟩
    exact (ho.isTold p hp hsame [] [] (by rw [hb])).1
  · rintro rfl
    exact ⟨same_self o hx, rfl⟩

end Outline

/-! Parsed trees -/

open Outline

theorem Literal.IsRead.unsigned {v : Literal} (h : v.IsRead Token.Lexed) : v.Unsigned := by
  intro x hx
  obtain ⟨t, ht, hv⟩ := h x hx
  have hliteral := ht.literal
  rw [hv] at hliteral
  unfold Item.literal at hliteral
  split at hliteral
  · cases hliteral
  · cases hliteral
    exact Number.isNegative_ofNumeral _
  · cases hliteral

theorem Expr.tidy_outlines {es : List Expr} (h : ∀ e ∈ es, e.outline.Tidy) : (list (Expr.outlines es)).Tidy := by
  rw [Expr.outlines_eq_map]
  exact .list (List.forall_mem_map.2 h)

theorem Stmt.tidy_outlines {ss : List Stmt} (h : ∀ s ∈ ss, s.outline.Tidy) : (list (Stmt.outlines ss)).Tidy := by
  rw [Stmt.outlines_eq_map]
  exact .list (List.forall_mem_map.2 h)

theorem Expr.Parsed.tidy {e : Expr} (h : e.Parsed Token.Lexed) : e.outline.Tidy := by
  induction h with
  | literal hv => exact .literal hv.unsigned
  | grouping _ ih => exact .node (by decide) (by simp [ih])
  | unary _ _ _ ih => exact .node (by decide) (by simp [ih, Tidy.lexeme])
  | binary _ _ _ _ ihl ihr => exact .node (by decide) (by simp [ihl, ihr, Tidy.lexeme])
  | «variable» => exact .node (by decide) (by simp [Tidy.lexeme])
  | assign _ _ ih => exact .node (by decide) (by simp [ih, Tidy.lexeme])
  | get _ _ ih => exact .node (by decide) (by simp [ih, Tidy.lexeme])
  | set _ _ _ iho ihv => exact .node (by decide) (by simp [iho, ihv, Tidy.lexeme])
  | call _ _ _ _ ihc ihs => exact .node (by decide) (by simp [ihc, Expr.tidy_outlines ihs, Tidy.lexeme])
  | this => exact .node (by decide) (by simp [Tidy.lexeme])

theorem Stmt.Parsed.tidy {s : Stmt} (h : s.Parsed Token.Lexed) : s.outline.Tidy := by
  induction h with
  | expression hi => exact .node (by decide) (by simp [hi.tidy])
  | print hi => exact .node (by decide) (by simp [hi.tidy])
  | @var _ o _ ho =>
    cases o with
    | none => exact .node (by decide) (by simp [Tidy.lexeme, Tidy.absent])
    | some e => exact .node (by decide) (by simp [Tidy.lexeme, (ho e rfl).tidy])
  | block _ ih => exact .node (by decide) (by simp [Stmt.tidy_outlines ih])
  | @branch _ _ o hc _ _ _ _ iht ihf =>
    cases o with
    | none => exact .node (by decide) (by simp [hc.tidy, iht, Tidy.absent])
    | some f => exact .node (by decide) (by simp [hc.tidy, iht, ihf f rfl])
  | «while» hc _ _ ih => exact .node (by decide) (by simp [hc.tidy, ih])
  | @function _ params _ _ _ _ ih =>
    have hparams : (ofTokens params).Tidy := .list (List.forall_mem_map.2 fun t _ => .lexeme t.lexeme)
    exact .node (by decide) (by simp [Stmt.tidy_outlines ih, hparams, Tidy.lexeme])
  | @«return» _ o _ _ ho =>
    cases o with
    | none => exact .node (by decide) (by simp [Tidy.lexeme, Tidy.absent])
    | some e => exact .node (by decide) (by simp [Tidy.lexeme, (ho e rfl).tidy])
  | «class» _ _ _ ih => exact .node (by decide) (by simp [Stmt.tidy_outlines ih, Tidy.lexeme])

end Lox
