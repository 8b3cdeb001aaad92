import Lox.Proofs.Tree.Outlined
import Lox.Proofs.Tree.Parsed

/-! The text of a tree says which tree it is, as far as outlines tell trees apart. -/

namespace Lox

/-! Forms with their texts and their outlines -/

namespace Form

/-- Whether a form is what a text says, and says which outline it is of. -/
structure Says (f : Form) (text : String) (o : Outline) : Prop where
  spells : f.Spells text
  outline : f.outline = o

inductive SaysAll : List Form → List String → List Outline → Prop where
  | nil : SaysAll [] [] []
  | cons {f : Form} {text : String} {o : Outline} {fs : List Form} {texts : List String} {os : List Outline} :
      f.Says text o → SaysAll fs texts os → SaysAll (f :: fs) (text :: texts) (o :: os)

variable {fs : List Form} {texts : List String} {os : List Outline} {head : String}

theorem SaysAll.spells (h : SaysAll fs texts os) : List.Forall₂ Spells fs texts := by
  induction h with
  | nil => exact .nil
  | cons hf _ ih => exact .cons hf.spells ih

theorem SaysAll.outlines (h : SaysAll fs texts os) : outlines fs = os := by
  induction h with
  | nil => rfl
  | cons hf _ ih => rw [Form.outlines, hf.outline, ih]

/-- A list in parentheses says what its head makes of its parts. -/
theorem SaysAll.headed (h : SaysAll fs texts os) (hh : IsWord head) :
    (list (word head :: fs)).Says (parenthesize head texts) (.headed head fs os) := by
  refine ⟨spells_node hh h.spells, ?_⟩
  have houtline : (list (word head :: fs)).outline = .headed head fs (Form.outlines fs) := rfl
  rw [houtline, h.outlines]

theorem SaysAll.marked (h : SaysAll fs texts os) (head : String) (hh : looksWordy head.toList) :
    (list (word head :: fs)).Says (parenthesize head texts) (.headed head fs os) :=
  h.headed (isWord_of_looksWordy hh)

theorem says_identifier {text : String} (h : IsIdentifier text) :
    (word text).Says text (.node "variable" [("name", .lexeme text)]) :=
  ⟨spells_word (isWord_of_isIdentifier h), Outline.ofWord_of_isIdentifier h⟩

theorem says_name {name : Token} (h : name.IsName Token.Lexed) :
    (word name.lexeme).Says name.lexeme (.node "variable" [("name", .lexeme name.lexeme)]) :=
  says_identifier (h.2.isIdentifier h.1)

theorem says_word (text : String) (h : looksWordy text.toList) : (word text).Says text (.ofWord text) :=
  ⟨spells_word (isWord_of_looksWordy h), rfl⟩

theorem Says.isAbsent {f : Form} {text : String} {o : Outline} (h : f.Says text o) (ho : o ≠ .absent) :
    f.isAbsent = false := by
  have houtline := h.outline
  unfold Form.isAbsent
  split
  · exact absurd houtline.symm ho
  · rfl

end Form

namespace Outline

mutual

/-- The numbers in an outline, in the order of writing. -/
def numbers : Outline → List Float
  | constant (.number x) => [x]
  | list items => numbersAll items
  | node _ fields => fieldNumbers fields
  | _ => []

def numbersAll : List Outline → List Float
  | [] => []
  | o :: os => o.numbers ++ numbersAll os

def fieldNumbers : List (String × Outline) → List Float
  | [] => []
  | (_, o) :: fields => o.numbers ++ fieldNumbers fields

end

theorem mem_numbersAll {x : Float} {os : List Outline} : x ∈ numbersAll os ↔ ∃ o ∈ os, x ∈ o.numbers := by
  induction os with
  | nil => simp [numbersAll]
  | cons o os ih => simp [numbersAll, ih]

/-- Whether text is that of an outline, and says which outline it is. -/
def Writes (o : Outline) (text : String) : Prop := o.form.Says text o

theorem says_forms {α : Type} {outline : α → Outline} {text : α → String} {l : List α}
    (h : ∀ a ∈ l, (∀ x ∈ (outline a).numbers, x.isFinite) → (outline a).Writes (text a))
    (hx : ∀ x ∈ numbersAll (l.map outline), x.isFinite) :
    Form.SaysAll (forms (l.map outline)) (l.map text) (l.map outline) := by
  induction l with
  | nil => exact .nil
  | cons a l ih =>
    obtain ⟨ha, hl⟩ := List.forall_mem_cons.1 h
    obtain ⟨hxa, hxl⟩ := List.forall_mem_append.1 hx
    exact .cons (ha hxa) (ih hl hxl)

end Outline

open Outline Form

variable {e : Expr} {s : Stmt}

theorem Literal.writes (value : Literal) (h : ∀ x ∈ (constant value).numbers, x.isFinite) :
    Writes (node "literal" [("value", constant value)]) value.text := by
  cases value with
  | nil => exact says_word "nil" (by decide)
  | bool b =>
    cases b with
    | false => exact says_word "false" (by decide)
    | true => exact says_word "true" (by decide)
  | number x => exact ⟨⟨rfl, .number (h x List.mem_cons_self)⟩, rfl⟩
  | string s => exact ⟨⟨rfl, .string s⟩, rfl⟩

theorem Expr.says_forms {es : List Expr}
    (h : ∀ e ∈ es, (∀ x ∈ e.outline.numbers, x.isFinite) → e.outline.Writes e.text)
    (hx : ∀ x ∈ numbersAll (Expr.outlines es), x.isFinite) :
    SaysAll (forms (Expr.outlines es)) (Expr.texts es) (Expr.outlines es) := by
  rw [Expr.outlines_eq_map] at hx ⊢
  rw [Expr.texts_eq_map]
  exact Outline.says_forms h hx

theorem Stmt.says_forms {ss : List Stmt}
    (h : ∀ s ∈ ss, (∀ x ∈ s.outline.numbers, x.isFinite) → s.outline.Writes s.text)
    (hx : ∀ x ∈ numbersAll (Stmt.outlines ss), x.isFinite) :
    SaysAll (forms (Stmt.outlines ss)) (Stmt.texts ss) (Stmt.outlines ss) := by
  rw [Stmt.outlines_eq_map] at hx ⊢
  rw [Stmt.texts_eq_map]
  exact Outline.says_forms h hx

/-- Parameters are words in a list without a head, and are read as such. -/
theorem spells_params (params : List Token) (h : ∀ t ∈ params, t.IsName Token.Lexed) :
    List.Forall₂ Spells (forms (params.map fun t => lexeme t.lexeme)) (params.map Token.lexeme) ∧
      (forms (params.map fun t => lexeme t.lexeme)).map ofParam = params.map fun t => lexeme t.lexeme := by
  induction params with
  | nil => exact ⟨.nil, rfl⟩
  | cons t params ih =>
    obtain ⟨ht, hparams⟩ := List.forall_mem_cons.1 h
    obtain ⟨hspells, hlexemes⟩ := ih hparams
    exact ⟨.cons (says_name ht).spells hspells, congrArg (List.cons _) hlexemes⟩

theorem Expr.Parsed.writes (h : e.Parsed Token.Lexed) (hx : ∀ x ∈ e.outline.numbers, x.isFinite) :
    e.outline.Writes e.text := by
  induction h with
  | @literal value _ => exact value.writes fun x h => hx x (List.mem_append_left _ h)
  | grouping _ ih =>
    simp only [Expr.outline, numbers, fieldNumbers, List.append_nil] at hx
    exact (SaysAll.cons (ih hx) .nil).marked "group" (by decide)
  | @unary operator right hk hp _ ih =>
    simp only [Expr.outline, numbers, fieldNumbers, List.nil_append, List.append_nil] at hx
    have hop := hp.lexeme_sign hk
    have hsays := (SaysAll.cons (ih hx) .nil).headed (isWord_of_mem_operators _ (List.mem_append_left _ hop))
    rwa [headed_sign _ _ _ hop] at hsays
  | @binary left operator right hk hp _ _ ihl ihr =>
    simp only [Expr.outline, numbers, fieldNumbers, List.nil_append, List.append_nil,
      List.forall_mem_append] at hx
    have hop := hp.lexeme_operator hk
    have hsays := (SaysAll.cons (ihl hx.1) (.cons (ihr hx.2) .nil)).headed
      (isWord_of_mem_operators _ (List.mem_append_right _ hop))
    rwa [headed_operator _ _ _ _ hop] at hsays
  | «variable» hn => exact says_name hn
  | assign hn _ ih =>
    simp only [Expr.outline, numbers, fieldNumbers, List.nil_append, List.append_nil] at hx
    exact (SaysAll.cons (says_name hn) (.cons (ih hx) .nil)).marked "=" (by decide)
  | get hn _ ih =>
    simp only [Expr.outline, numbers, fieldNumbers, List.append_nil] at hx
    exact (SaysAll.cons (ih hx) (.cons (says_name hn) .nil)).marked "." (by decide)
  | set hn _ _ iho ihv =>
    simp only [Expr.outline, numbers, fieldNumbers, List.nil_append, List.append_nil,
      List.forall_mem_append] at hx
    have htarget := (SaysAll.cons (iho hx.1) (.cons (says_name hn) .nil)).marked "." (by decide)
    exact (SaysAll.cons htarget (.cons (ihv hx.2) .nil)).marked "=" (by decide)
  | @call callee paren arguments _ hk hp _ ihc ihs =>
    simp only [Expr.outline, numbers, fieldNumbers, List.nil_append, List.append_nil,
      List.forall_mem_append] at hx
    have hparen : paren.lexeme = ")" := hp.lexeme_eq hk (by decide) (by decide)
    rw [Expr.outline, hparen]
    exact (SaysAll.cons (ihc hx.1) (Expr.says_forms ihs hx.2)).marked "call" (by decide)
  | @this keyword hk hp =>
    have hkeyword : keyword.lexeme = "this" := hp.lexeme_eq hk (by decide) (by decide)
    rw [Expr.outline, hkeyword]
    exact says_word "this" (by decide)

theorem Expr.Parsed.outline_ne_absent {P : Token → Prop} (h : e.Parsed P) : e.outline ≠ absent := by
  cases h <;> exact nofun

theorem Stmt.Parsed.outline_ne_absent {P : Token → Prop} (h : s.Parsed P) : s.outline ≠ absent := by
  cases h with
  | @var _ o | @branch _ _ o | @«return» _ o => cases o <;> exact nofun
  | _ => exact nofun

theorem Stmt.Parsed.writes (h : s.Parsed Token.Lexed) (hx : ∀ x ∈ s.outline.numbers, x.isFinite) :
    s.outline.Writes s.text := by
  induction h with
  | expression hi =>
    simp only [Stmt.outline, numbers, fieldNumbers, List.append_nil] at hx
    exact (SaysAll.cons (hi.writes hx) .nil).marked ";" (by decide)
  | print hi =>
    simp only [Stmt.outline, numbers, fieldNumbers, List.append_nil] at hx
    exact (SaysAll.cons (hi.writes hx) .nil).marked "print" (by decide)
  | @var name o hn ho =>
    cases o with
    | none => exact (SaysAll.cons (says_name hn) .nil).marked "var" (by decide)
    | some value =>
      simp only [Stmt.outline, numbers, fieldNumbers, List.nil_append, List.append_nil] at hx
      have hp := ho value rfl
      have hv := hp.writes hx
      have hform : (Stmt.var name (some value)).outline.form =
          .list (.word "var" :: .word name.lexeme ::
            if value.outline.form.isAbsent then [] else [.word "=", value.outline.form]) := rfl
      rw [hv.isAbsent hp.outline_ne_absent] at hform
      have hequals := says_word "=" (by decide)
      unfold Writes
      rw [hform]
      exact (SaysAll.cons (says_name hn) (.cons hequals (.cons hv .nil))).marked "var" (by decide)
  | block _ ih =>
    simp only [Stmt.outline, numbers, fieldNumbers, List.append_nil] at hx
    exact (Stmt.says_forms ih hx).marked "block" (by decide)
  | @branch condition whenTrue o hc _ _ hf _ iht ihf =>
    cases o with
    | none =>
      simp only [Stmt.outline, numbers, fieldNumbers, List.append_nil, List.forall_mem_append] at hx
      exact (SaysAll.cons (hc.writes hx.1) (.cons (iht hx.2) .nil)).marked "if" (by decide)
    | some whenFalse =>
      simp only [Stmt.outline, numbers, fieldNumbers, List.append_nil, List.forall_mem_append] at hx
      have hfalse := ihf whenFalse rfl hx.2.2
      have hform : (Stmt.branch condition whenTrue (some whenFalse)).outline.form =
          if whenFalse.outline.form.isAbsent then _
          else .list [.word "if-else", condition.outline.form, whenTrue.outline.form, whenFalse.outline.form] := rfl
      rw [hfalse.isAbsent (hf whenFalse rfl).outline_ne_absent] at hform
      unfold Writes
      rw [hform]
      exact (SaysAll.cons (hc.writes hx.1) (.cons (iht hx.2.1) (.cons hfalse .nil))).marked "if-else" (by decide)
  | «while» hc _ _ ih =>
    simp only [Stmt.outline, numbers, fieldNumbers, List.append_nil, List.forall_mem_append] at hx
    exact (SaysAll.cons (hc.writes hx.1) (.cons (ih hx.2) .nil)).marked "while" (by decide)
  | @function name params body hn hp _ ih =>
    simp only [Stmt.outline, numbers, fieldNumbers, List.nil_append, List.append_nil,
      List.forall_mem_append] at hx
    obtain ⟨hspells, hlexemes⟩ := spells_params params hp
    have hparams := Says.mk (spells_list hspells) rfl
    have hsays := (SaysAll.cons (says_name hn) (.cons hparams (Stmt.says_forms ih hx.2))).marked "fun" (by decide)
    have houtline : headed "fun" (.word name.lexeme :: .list (forms (params.map fun t => lexeme t.lexeme)) ::
          forms (Stmt.outlines body)) (node "variable" [("name", lexeme name.lexeme)] ::
            (Form.list (forms (params.map fun t => lexeme t.lexeme))).outline :: Stmt.outlines body) =
        (Stmt.function name params body).outline :=
      congrArg (fun ps => node "function"
        [("name", lexeme name.lexeme), ("params", list ps), ("body", list (Stmt.outlines body))]) hlexemes
    rwa [houtline] at hsays
  | @«return» keyword o hk hp ho =>
    have hkeyword : keyword.lexeme = "return" := hp.lexeme_eq hk (by decide) (by decide)
    cases o with
    | none =>
      rw [Stmt.outline, hkeyword]
      exact SaysAll.nil.marked "return" (by decide)
    | some value =>
      simp only [Stmt.outline, numbers, fieldNumbers, List.nil_append, List.append_nil] at hx
      have hp := ho value rfl
      have hv := hp.writes hx
      have hform : (Stmt.return keyword (some value)).outline.form =
          .list (.word "return" :: if value.outline.form.isAbsent then [] else [value.outline.form]) := rfl
      rw [hv.isAbsent hp.outline_ne_absent] at hform
      unfold Writes
      rw [hform, Stmt.outline, hkeyword]
      exact (SaysAll.cons hv .nil).marked "return" (by decide)
  | «class» hn _ _ ih =>
    simp only [Stmt.outline, numbers, fieldNumbers, List.nil_append, List.append_nil] at hx
    exact (SaysAll.cons (says_name hn) (Stmt.says_forms ih hx)).marked "class" (by decide)

end Lox
