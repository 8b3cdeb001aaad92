import Lox.Proofs.Token.Spelled
import Lox.Proofs.Token.Lexeme
import Lox.Proofs.Token.Numeral

/-! Cutting by the longest item. Every text has one cut into items, each the longest legal one at the front of
what is left, with errors only where nothing legal begins; a scan has the tokens of that cut and a diagnostic
for each of its errors. -/

namespace Lox
namespace Item

structure Munches (i : Item) (cs rest : List Char) : Prop where
  legal : i.Legal
  text_append : i.text ++ rest = cs
  longest : ∀ j : Item, j.Legal → j.text <+: cs → j.text.length ≤ i.text.length

inductive Cuts : List Char → List Item → Prop where
  | nil : Cuts [] []
  | item {i : Item} {cs rest : List Char} {is : List Item} : i.Munches cs rest → Cuts rest is →
      Cuts cs (i :: is)
  | unclosed {cs : List Char} : (∀ j : Item, j.Legal → ¬ j.text <+: '"' :: cs) →
      Cuts ('"' :: cs) [unclosed ('"' :: cs)]
  | unexpected {c : Char} {cs : List Char} {is : List Item} : c ≠ '"' →
      (∀ j : Item, j.Legal → ¬ j.text <+: c :: cs) → Cuts cs is → Cuts (c :: cs) (unexpected c :: is)

theorem not_legal_unclosed {text : List Char} : ¬ (unclosed text).Legal := nofun

theorem not_legal_unexpected {c : Char} : ¬ (unexpected c).Legal := nofun

theorem Legal.text_ne_nil {i : Item} (h : i.Legal) : i.text ≠ [] := by
  cases h <;> simp [text]

section Front

variable {i : Item} {c : Char} {cs rest : List Char}

theorem Legal.cut_of_prefix (h : i.Legal) (hp : i.text <+: c :: cs) :
    (cut c cs).1.Legal ∧ i.text.length ≤ (cut c cs).1.text.length := by
  obtain ⟨rest, he⟩ := hp
  obtain ⟨hl, rfl | hlt⟩ := h.eq_cut_or_lt he
  · exact ⟨hl, Nat.le_refl _⟩
  · exact ⟨hl, hlt.le⟩

theorem munches_cut (h : (cut c cs).1.Legal) : (cut c cs).1.Munches (c :: cs) (cut c cs).2 :=
  ⟨h, text_cut_append c cs, fun _ hj hp => (hj.cut_of_prefix hp).2⟩

/-- The longest item is the one that is cut. -/
theorem Munches.cut_eq (h : i.Munches (c :: cs) rest) : cut c cs = (i, rest) := by
  obtain ⟨hl, rfl | hlt⟩ := h.legal.eq_cut_or_lt h.text_append
  · exact Prod.ext rfl (List.append_cancel_left ((text_cut_append c cs).trans h.text_append.symm))
  · exact absurd (h.longest _ hl ⟨_, text_cut_append c cs⟩) (Nat.not_le.2 hlt)

theorem legal_cut_iff : (cut c cs).1.Legal ↔ ∃ j : Item, j.Legal ∧ j.text <+: c :: cs :=
  ⟨fun h => ⟨_, h, _, text_cut_append c cs⟩, fun ⟨_, hj, hp⟩ => (hj.cut_of_prefix hp).1⟩

end Front

theorem cuts_ofChars (cs : List Char) : Cuts cs (ofChars cs) := by
  fun_induction ofChars cs with
  | case1 => exact .nil
  | case2 c cs ih =>
    have hnone : ¬ (cut c cs).1.Legal → ∀ j : Item, j.Legal → ¬ j.text <+: c :: cs :=
      fun h j hj hp => h (legal_cut_iff.2 ⟨j, hj, hp⟩)
    rcases legal_cut c cs with h | ⟨rfl, h⟩ | ⟨hq, h⟩
    · exact .item (munches_cut h) ih
    · rw [h] at hnone ⊢
      simpa only [ofChars] using Cuts.unclosed (hnone not_legal_unclosed)
    · rw [h] at hnone ih ⊢
      exact .unexpected hq (hnone not_legal_unexpected) ih

theorem Cuts.eq_ofChars {cs : List Char} {is : List Item} (h : Cuts cs is) : is = ofChars cs := by
  induction h with
  | nil => rw [ofChars]
  | @item i cs rest is hi _ ih =>
    obtain _ | ⟨c, cs⟩ := cs
    · exact absurd (List.append_eq_nil_iff.1 hi.text_append).1 hi.legal.text_ne_nil
    · rw [ofChars, hi.cut_eq, ih]
  | @unclosed cs hnone =>
    rcases legal_cut '"' cs with h | ⟨-, h⟩ | ⟨hq, -⟩
    · obtain ⟨j, hj, hp⟩ := legal_cut_iff.1 h
      exact absurd hp (hnone j hj)
    · rw [ofChars, h, ofChars]
    · exact absurd rfl hq
  | @unexpected c cs is hq hnone _ ih =>
    rcases legal_cut c cs with h | ⟨hc, -⟩ | ⟨-, h⟩
    · obtain ⟨j, hj, hp⟩ := legal_cut_iff.1 h
      exact absurd hp (hnone j hj)
    · exact absurd hc hq
    · rw [ofChars, h, ih]

theorem cuts_iff {cs : List Char} {is : List Item} : Cuts cs is ↔ is = ofChars cs :=
  ⟨Cuts.eq_ofChars, fun h => h ▸ cuts_ofChars cs⟩

def spelling? : Item → Option (TokenKind × List Char)
  | token kind text => some (kind, text)
  | _ => none

def problem? : Item → Option LexicalProblem
  | unexpected c => some (.unexpectedCharacter c)
  | unclosed _ => some .unterminatedString
  | _ => none

end Item

/-- Whether a token is what its item says: of that kind, with that text, and with the constant the text is. -/
structure Token.Reads (t : Token) (spelling : TokenKind × List Char) : Prop where
  kind : t.kind = spelling.1
  lexeme : t.lexeme = String.ofList spelling.2
  string : t.kind = .string →
    ∃ body, spelling.2 = '"' :: (body ++ ['"']) ∧ t.literal = .string (String.ofList body)
  number : t.kind = .number → ∃ x, Number.ofText? t.lexeme = some x ∧ t.literal = .number x
  other : t.kind ≠ .string → t.kind ≠ .number → t.literal = .nil

def Diagnostic.Reports (d : Diagnostic) (p : LexicalProblem) : Prop := ∃ line, d = .source line "" p.message

namespace Item

variable {kind : TokenKind} {text : List Char}

theorem Legal.of_mem_ofChars {cs : List Char} (h : token kind text ∈ ofChars cs) : (token kind text).Legal := by
  fun_induction ofChars cs with
  | case1 => cases h
  | case2 c cs ih =>
    rcases List.mem_cons.1 h with h | h
    · rcases legal_cut c cs with hl | ⟨-, hl⟩ | ⟨-, hl⟩
      · exact h ▸ hl
      · rw [hl] at h
        cases h
      · rw [hl] at h
        cases h
    · exact ih h

/-- The kinds whose tokens have a constant, and the one of the token that ends a list. -/
def special : List TokenKind := [.string, .number, .eof]

theorem kind_special (h : (token kind text).Legal) : kind ∉ special ∨
    (kind = .string ∧ ∃ body, text = '"' :: (body ++ ['"'])) ∨
    (kind = .number ∧ Number.ofText? (String.ofList text) = some (Number.ofNumeral text)) := by
  have hmarks : ∀ p ∈ marks, p.2 ∉ special := by decide
  have hextensible : ∀ p ∈ extensible, p.2.1 ∉ special ∧ p.2.2 ∉ special := by decide
  have hwords : ∀ p ∈ TokenKind.words, p.2 ∉ special := by decide
  cases h with
  | mark h => exact .inl (hmarks _ h)
  | operator h => exact .inl (hextensible _ h).2
  | extended h => exact .inl (hextensible _ h).1
  | slash => exact .inl (by decide)
  | word _ _ h =>
    rcases h with h | ⟨rfl, -⟩
    · exact .inl (hwords _ h)
    · exact .inl (by decide)
  | string => exact .inr (.inl ⟨rfl, _, rfl⟩)
  | @whole d ds hd hds =>
    have hall : ∀ c ∈ d :: ds, isDigit c := List.forall_mem_cons.2 ⟨hd, hds⟩
    exact .inr (.inr ⟨rfl, Number.ofText?_whole hall⟩)
  | @fraction d e ds es hd hds he hes =>
    have hleft : ∀ c ∈ d :: ds, isDigit c := List.forall_mem_cons.2 ⟨hd, hds⟩
    have hright : ∀ c ∈ e :: es, isDigit c := List.forall_mem_cons.2 ⟨he, hes⟩
    exact .inr (.inr ⟨rfl, Number.ofText?_fraction hleft hright⟩)

end Item

namespace Scan

theorem forall₂_tokens {is : List Item} (h : ∀ i ∈ is, ∀ kind text, i = .token kind text → i.Legal) :
    ∀ line, List.Forall₂ Token.Reads (ofItems line is).tokens (is.filterMap Item.spelling?) := by
  induction is with
  | nil => exact fun _ => .nil
  | cons i is ih =>
    intro line
    have ih := ih (fun j hj => h j (List.mem_cons_of_mem i hj)) (line + i.newlines)
    cases i with
    | blank | comment | unexpected | unclosed => exact ih
    | token kind text =>
      refine .cons ?_ ih
      have hl := h _ List.mem_cons_self kind text rfl
      rcases Item.kind_special hl with hk | ⟨rfl, body, rfl⟩ | ⟨rfl, hx⟩
      · simp only [Item.special, List.mem_cons, not_or] at hk
        refine ⟨rfl, rfl, fun he => absurd he hk.1, fun he => absurd he hk.2.1, fun _ _ => ?_⟩
        unfold Item.literal
        split
        · exact absurd rfl hk.1
        · exact absurd rfl hk.2.1
        · rfl
      · exact ⟨rfl, rfl, fun _ => ⟨body, rfl, by simp [Item.literal]⟩, nofun, fun h => absurd rfl h⟩
      · exact ⟨rfl, rfl, nofun, fun _ => ⟨_, hx, rfl⟩, fun _ h => absurd rfl h⟩

theorem forall₂_diagnostics (is : List Item) :
    ∀ line, List.Forall₂ Diagnostic.Reports (ofItems line is).diagnostics (is.filterMap Item.problem?) := by
  induction is with
  | nil => exact fun _ => .nil
  | cons i is ih =>
    intro line
    have ih := ih (line + i.newlines)
    cases i with
    | token | blank | comment => exact ih
    | unexpected | unclosed => exact .cons ⟨_, rfl⟩ ih

theorem scans_by_longest_item (source : String) : ∃ items tokens line,
    (∀ is, Item.Cuts source.toList is ↔ is = items) ∧ items.flatMap Item.text = source.toList ∧
    (ofText source).allTokens = tokens ++ [Token.ending line] ∧ (∀ t ∈ tokens, t.kind ≠ .eof) ∧
    List.Forall₂ Token.Reads tokens (items.filterMap Item.spelling?) ∧
    List.Forall₂ Diagnostic.Reports (ofText source).diagnostics (items.filterMap Item.problem?) := by
  have hlegal : ∀ i ∈ Item.ofChars source.toList, ∀ kind text, i = .token kind text → i.Legal := by
    rintro i hi kind text rfl
    exact Item.Legal.of_mem_ofChars hi
  refine ⟨Item.ofChars source.toList, (ofText source).tokens, _, fun _ => Item.cuts_iff,
    Item.flatMap_text_ofChars _, rfl, fun t ht he => ?_, forall₂_tokens hlegal 1, forall₂_diagnostics _ 1⟩
  obtain ⟨text, hi, -⟩ := mem_tokens_ofItems _ 1 ht
  rcases Item.kind_special (Item.Legal.of_mem_ofChars hi) with hk | ⟨hk, -⟩ | ⟨hk, -⟩
  · exact hk (by rw [he]; decide)
  · rw [he] at hk
    cases hk
  · rw [he] at hk
    cases hk

end Scan

end Lox
