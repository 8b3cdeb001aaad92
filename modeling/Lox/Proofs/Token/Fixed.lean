import Lox.Proofs.Token.MaximalMunch

/-! What the tokens of a text are written as. A mark, an operator or a reserved word has one text, a name is a word
that is not reserved. -/

namespace Lox

/-- Whether a token is written as a token of its kind is, and has the constant that it is read as. -/
structure Token.Lexed (t : Token) : Prop where
  legal : (Item.token t.kind t.lexeme.toList).Legal
  literal : t.literal = Item.literal t.kind t.lexeme.toList

theorem Scan.lexed_ofText (source : String) : ∀ t ∈ (Scan.ofText source).tokens, t.Lexed := by
  intro t ht
  obtain ⟨text, hm, hl, hv⟩ := Scan.mem_tokens_ofItems _ 1 ht
  constructor <;> rw [hl, String.toList_ofList]
  · exact Item.Legal.of_mem_ofChars hm
  · exact hv

/-- The kinds that are written in one way only, each with its text. -/
def TokenKind.texts : List (TokenKind × String) :=
  Item.marks.map (fun p => (p.2, String.ofList [p.1])) ++
    Item.extensible.flatMap (fun p => [(p.2.1, String.ofList [p.1, '=']), (p.2.2, String.ofList [p.1])]) ++
      (.slash, "/") :: TokenKind.words.map Prod.swap

/-- Whether text is a word that is not reserved. -/
structure IsIdentifier (text : String) : Prop where
  chars : ∃ c cs, text.toList = c :: cs ∧ Item.isAlpha c ∧ ∀ d ∈ cs, Item.isAlphaNumeric d
  ne_word : ∀ p ∈ TokenKind.words, p.1 ≠ text

namespace Token.Lexed

variable {t : Token}

theorem kind_lexeme (h : t.Lexed) : t.kind ∈ [.number, .string] ∨ (t.kind, t.lexeme) ∈ TokenKind.texts ∨
    t.kind = .identifier ∧ IsIdentifier t.lexeme := by
  obtain ⟨kind, text, value, line⟩ := t
  have hmark : ∀ p ∈ Item.marks, (p.2, String.ofList [p.1]) ∈ TokenKind.texts := by decide
  have hextensible : ∀ p ∈ Item.extensible, (p.2.1, String.ofList [p.1, '=']) ∈ TokenKind.texts ∧
      (p.2.2, String.ofList [p.1]) ∈ TokenKind.texts := by decide
  have hword : ∀ p ∈ TokenKind.words, (p.2, p.1) ∈ TokenKind.texts := by decide
  obtain ⟨hlegal, -⟩ := h
  dsimp only at hlegal ⊢
  generalize hcs : text.toList = cs at hlegal
  obtain rfl : text = String.ofList cs := by rw [← hcs, String.ofList_toList]
  cases hlegal with
  | mark h => exact .inr (.inl (hmark _ h))
  | operator h => exact .inr (.inl (hextensible _ h).2)
  | extended h => exact .inr (.inl (hextensible _ h).1)
  | slash => exact .inr (.inl (by decide))
  | whole => exact .inl (by decide)
  | fraction => exact .inl (by decide)
  | string => exact .inl (by decide)
  | word hc hd h =>
    rcases h with h | ⟨rfl, h⟩
    · exact .inr (.inl (hword _ h))
    · exact .inr (.inr ⟨rfl, ⟨_, _, hcs, hc, hd⟩, h⟩)

theorem isIdentifier (h : t.Lexed) (hk : t.kind = .identifier) : IsIdentifier t.lexeme := by
  have htexts : ∀ p ∈ TokenKind.texts, p.1 ≠ .identifier := by decide
  rcases h.kind_lexeme with hn | hn | ⟨-, hn⟩
  · rw [hk] at hn
    exact absurd hn (by decide)
  · exact absurd hk (htexts _ hn)
  · exact hn

/-- A token of a kind that is written in one way only. -/
theorem mem_texts (h : t.Lexed) (hk : t.kind ∉ [.identifier, .number, .string]) :
    (t.kind, t.lexeme) ∈ TokenKind.texts := by
  rcases h.kind_lexeme with hn | hn | ⟨hn, -⟩
  · exact absurd (List.mem_cons_of_mem _ hn) hk
  · exact hn
  · exact absurd (by simp [hn]) hk

theorem lexeme_eq (h : t.Lexed) {kind : TokenKind} {text : String} (hk : t.kind = kind)
    (hother : kind ∉ [.identifier, .number, .string])
    (htext : ∀ p ∈ TokenKind.texts, p.1 = kind → p.2 = text) : t.lexeme = text := by
  subst hk
  exact htext _ (h.mem_texts hother) rfl

end Token.Lexed
end Lox
