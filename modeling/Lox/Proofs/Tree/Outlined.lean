import Lox.Proofs.Token.Fixed
import Lox.Proofs.Tree.Form
import Lox.Tree.Parser

/-! Outlines and the forms they are written in, both ways: an outline has one form, and the form of a tree says which
outline it is. -/

namespace Lox

/-! From outlines to forms -/

def Literal.form : Literal → Form
  | nil => .word "nil"
  | bool b => .word (if b then "true" else "false")
  | number x => .number x
  | string s => .string s

/-- Whether a form is that of an optional part that is not there. -/
def Form.isAbsent : Form → Bool
  | .list [] => true
  | _ => false

/-- The form of a node with the given fields. -/
def Form.ofNode : String → List Form → Form
  | "literal", [v] | "variable", [v] | "this", [v] => v
  | "grouping", [e] => .list [.word "group", e]
  | "unary", [op, r] => .list [op, r]
  | "binary", [l, op, r] => .list [op, l, r]
  | "assign", [n, v] => .list [.word "=", n, v]
  | "get", [o, n] => .list [.word ".", o, n]
  | "set", [o, n, v] => .list [.word "=", .list [.word ".", o, n], v]
  | "call", [c, _, .list args] => .list (.word "call" :: c :: args)
  | "expression", [e] => .list [.word ";", e]
  | "print", [e] => .list [.word "print", e]
  | "var", [n, e] => .list (.word "var" :: n :: if e.isAbsent then [] else [.word "=", e])
  | "block", [.list ss] => .list (.word "block" :: ss)
  | "if", [c, t, f] => if f.isAbsent then .list [.word "if", c, t] else .list [.word "if-else", c, t, f]
  | "while", [c, b] => .list [.word "while", c, b]
  | "function", [n, ps, .list ss] => .list (.word "fun" :: n :: ps :: ss)
  | "return", [_, e] => .list (.word "return" :: if e.isAbsent then [] else [e])
  | "class", [n, .list ms] => .list (.word "class" :: n :: ms)
  | _, parts => .list parts

namespace Outline

mutual

/-- The form that an outline is written in. -/
def form : Outline → Form
  | absent => .list []
  | constant value => value.form
  | lexeme text => .word text
  | list items => .list (forms items)
  | node kind fields => .ofNode kind (fieldForms fields)

def forms : List Outline → List Form
  | [] => []
  | o :: os => o.form :: forms os

def fieldForms : List (String × Outline) → List Form
  | [] => []
  | (_, o) :: fields => o.form :: fieldForms fields

end

/-! From forms to outlines -/

def ofWord (text : String) : Outline :=
  if text = "nil" then node "literal" [("value", constant .nil)]
  else if text = "true" then node "literal" [("value", constant (.bool true))]
  else if text = "false" then node "literal" [("value", constant (.bool false))]
  else if text = "this" then node "this" [("keyword", lexeme text)]
  else node "variable" [("name", lexeme text)]

def ofParam : Form → Outline
  | .word text => lexeme text
  | _ => absent

def headed : String → List Form → List Outline → Outline
  | "group", _, [e] => node "grouping" [("expression", e)]
  | "=", _, [node "variable" name, v] => node "assign" (name ++ [("value", v)])
  | "=", _, [node "get" target, v] => node "set" (target ++ [("value", v)])
  | ".", _, [o, node _ name] => node "get" (("object", o) :: name)
  | "call", _, c :: args => node "call" [("callee", c), ("paren", lexeme ")"), ("arguments", list args)]
  | ";", _, [e] => node "expression" [("expression", e)]
  | "print", _, [e] => node "print" [("expression", e)]
  | "var", _, [node _ name] => node "var" (name ++ [("initializer", absent)])
  | "var", _, [node _ name, _, e] => node "var" (name ++ [("initializer", e)])
  | "block", _, ss => node "block" [("statements", list ss)]
  | "if", _, [c, t] => node "if" [("condition", c), ("then_branch", t), ("else_branch", absent)]
  | "if-else", _, [c, t, f] => node "if" [("condition", c), ("then_branch", t), ("else_branch", f)]
  | "while", _, [c, b] => node "while" [("condition", c), ("body", b)]
  | "fun", _ :: .list params :: _, node _ name :: _ :: ss =>
    node "function" (name ++ [("params", list (params.map ofParam)), ("body", list ss)])
  | "return", _, [] => node "return" [("keyword", lexeme "return"), ("value", absent)]
  | "return", _, [e] => node "return" [("keyword", lexeme "return"), ("value", e)]
  | "class", _, node _ name :: ms => node "class" (name ++ [("methods", list ms)])
  | op, _, [r] => node "unary" [("operator", lexeme op), ("right", r)]
  | op, _, [l, r] => node "binary" [("left", l), ("operator", lexeme op), ("right", r)]
  | _, _, _ => absent

def ofParts : List Form → List Outline → Outline
  | .word head :: raw, _ :: parts => headed head raw parts
  | _, _ => absent

end Outline

namespace Form

mutual

/-- The outline that is written in a form. -/
def outline : Form → Outline
  | word text => .ofWord text
  | number x => .node "literal" [("value", .constant (.number x))]
  | string s => .node "literal" [("value", .constant (.string s))]
  | list items => .ofParts items (outlines items)

def outlines : List Form → List Outline
  | [] => []
  | f :: fs => f.outline :: outlines fs

end

end Form

/-! Forms that spell texts -/

namespace Form

/-- Whether a form is what a text says. -/
structure Spells (f : Form) (text : String) : Prop where
  chars : f.chars = text.toList
  legible : f.Legible

theorem inner_eq_intercalate (fs : List Form) : inner fs = [' '].intercalate (fs.map chars) := by
  induction fs with
  | nil => rfl
  | cons f fs ih =>
    cases fs with
    | nil => simp [inner, trail]
    | cons g gs =>
      rw [inner, trail, List.map_cons, List.map_cons, List.intercalate_cons_cons, ← List.map_cons, ← ih, inner,
        List.append_assoc]
      rfl

variable {fs : List Form} {texts : List String}

theorem map_chars_eq (h : List.Forall₂ Spells fs texts) : fs.map chars = texts.map String.toList := by
  induction h with
  | nil => rfl
  | cons hf _ ih => rw [List.map_cons, List.map_cons, hf.chars, ih]

theorem forall_legible (h : List.Forall₂ Spells fs texts) : ∀ f ∈ fs, f.Legible := by
  induction h with
  | nil => nofun
  | cons hf _ ih => exact List.forall_mem_cons.2 ⟨hf.legible, ih⟩

theorem spells_list (h : List.Forall₂ Spells fs texts) :
    Spells (list fs) ("(" ++ " ".intercalate texts ++ ")") := by
  refine ⟨?_, .list (forall_legible h)⟩
  rw [chars, inner_eq_intercalate, map_chars_eq h]
  simp [String.toList_intercalate]

theorem spells_word {text : String} (h : IsWord text) : Spells (word text) text := ⟨rfl, .word h⟩

theorem spells_node {head : String} (hh : IsWord head) (h : List.Forall₂ Spells fs texts) :
    Spells (list (word head :: fs)) (parenthesize head texts) :=
  spells_list (.cons (spells_word hh) h)

end Form

/-! Words -/

/-- Whether text looks like a word, by its characters. -/
def looksWordy : List Char → Bool
  | [] => false
  | c :: cs => (c :: cs).all (fun d => decide (Form.Plain d)) && !c.isDigit && (c != '-' || cs.isEmpty)

theorem isWord_of_looksWordy {t : String} (h : looksWordy t.toList) : Form.IsWord t := by
  cases hc : t.toList with
  | nil => rw [hc] at h; cases h
  | cons c cs =>
    rw [hc] at h
    simp only [looksWordy, Bool.and_eq_true, List.all_eq_true, decide_eq_true_eq, Bool.not_eq_true', Bool.or_eq_true,
      bne_iff_ne, ne_eq, List.isEmpty_iff] at h
    obtain ⟨⟨hplain, hdigit⟩, hminus⟩ := h
    exact ⟨hc ▸ hplain, c, cs, hc, hdigit, fun hm => hminus.resolve_left (not_not.2 hm)⟩

theorem isWord_of_isIdentifier {text : String} (h : IsIdentifier text) : Form.IsWord text := by
  have hplain : ∀ x ∈ [' ', '(', ')', '\n', '\'', '"'], Item.isAlphaNumeric x = false := by
    simp [Item.isAlphaNumeric, Item.isAlpha, Item.isDigit]
  obtain ⟨c, cs, hc, halpha, hcs⟩ := h.chars
  have hall : ∀ d ∈ c :: cs, Item.isAlphaNumeric d :=
    List.forall_mem_cons.2 ⟨by simp [Item.isAlphaNumeric, halpha], hcs⟩
  refine ⟨fun d hd hbad => ?_, c, cs, hc, ?_, ?_⟩
  · rw [hc] at hd
    have := hall d hd
    rw [hplain d hbad] at this
    cases this
  · rw [← Number.isDigit_eq]
    exact Item.isDigit_of_isAlpha halpha
  · rintro rfl
    cases halpha

theorem Outline.ofWord_of_isIdentifier {text : String} (h : IsIdentifier text) :
    ofWord text = node "variable" [("name", lexeme text)] := by
  have hreserved : ∀ w ∈ ["nil", "true", "false", "this"], text ≠ w := by
    intro w hw heq
    have hmem : ∀ w ∈ ["nil", "true", "false", "this"], ∃ p ∈ TokenKind.words, p.1 = w := by decide
    obtain ⟨p, hp, hpw⟩ := hmem w hw
    exact h.ne_word p hp (hpw.trans heq.symm)
  simp [ofWord, hreserved]

/-- The texts of the operators that stand before an operand, and of those that stand between two. -/
def signTexts : List String := ["!", "-"]

def operatorTexts : List String := ["or", "and", "!=", "==", ">", ">=", "<", "<=", "-", "+", "/", "*"]

theorem isWord_of_mem_operators : ∀ w ∈ signTexts ++ operatorTexts, Form.IsWord w := by
  have hlooks : ∀ w ∈ signTexts ++ operatorTexts, looksWordy w.toList := by decide
  exact fun w hw => isWord_of_looksWordy (hlooks w hw)

theorem Outline.headed_sign (raw : List Form) (r : Outline) :
    ∀ op ∈ signTexts, headed op raw [r] = node "unary" [("operator", lexeme op), ("right", r)] := by
  simp only [signTexts, List.forall_mem_cons]
  exact ⟨rfl, rfl, nofun⟩

theorem Outline.headed_operator (raw : List Form) (l r : Outline) : ∀ op ∈ operatorTexts,
    headed op raw [l, r] = node "binary" [("left", l), ("operator", lexeme op), ("right", r)] := by
  simp only [operatorTexts, List.forall_mem_cons]
  exact ⟨rfl, rfl, rfl, rfl, rfl, rfl, rfl, rfl, rfl, rfl, rfl, rfl, nofun⟩

namespace Token.Lexed

variable {t : Token}

theorem lexeme_sign (h : t.Lexed) (hk : t.kind ∈ [.bang, .minus]) : t.lexeme ∈ signTexts := by
  have hkinds : ∀ k ∈ [TokenKind.bang, .minus], k ∉ [TokenKind.identifier, .number, .string] := by decide
  have htexts : ∀ p ∈ TokenKind.texts, p.1 ∈ [TokenKind.bang, .minus] → p.2 ∈ signTexts := by decide
  exact htexts _ (h.mem_texts (hkinds _ hk)) hk

theorem lexeme_operator (h : t.Lexed) (hk : t.kind ∈ Parser.binaryLevels.flatten) : t.lexeme ∈ operatorTexts := by
  have hkinds : ∀ k ∈ Parser.binaryLevels.flatten, k ∉ [TokenKind.identifier, .number, .string] := by decide
  have htexts : ∀ p ∈ TokenKind.texts, p.1 ∈ Parser.binaryLevels.flatten → p.2 ∈ operatorTexts := by decide
  exact htexts _ (h.mem_texts (hkinds _ hk)) hk

end Token.Lexed

end Lox
