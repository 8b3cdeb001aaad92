import Lox.Token.Scan

/-! How the words of a text become tokens. A reserved word is a token of its own kind, every other word is a
name, and nothing else is either. -/

namespace Lox

/-- Whether a kind is one of words: of reserved ones, or of names. -/
def TokenKind.isWord (k : TokenKind) : Bool := k = identifier || words.any (·.2 = k)

/-- Whether a token that is a word has the kind of that word. -/
def Token.Spelled (t : Token) : Prop := t.kind.isWord → t.kind = .ofWord t.lexeme

theorem TokenKind.eq_of_ofWord {word : String} (k : TokenKind) (hk : k ≠ identifier) (h : ofWord word = k) :
    (word, k) ∈ words := by
  unfold ofWord at h
  cases hl : words.lookup word with
  | none => rw [hl] at h; exact absurd h.symm hk
  | some k' =>
    rw [hl] at h
    obtain ⟨l₁, l₂, hw, -⟩ := List.lookup_eq_some_iff.1 hl
    rw [hw, ← show k' = k from h]
    simp

/-- A name is not spelled `this`. -/
theorem Token.Spelled.lexeme_ne {t : Token} (h : t.Spelled) (hk : t.kind = .identifier) :
    t.lexeme ≠ "this" := by
  intro hl
  have hword := h (by rw [hk]; rfl)
  rw [hk, hl] at hword
  exact absurd hword (by decide)

theorem Token.Spelled.lexeme_eq {t : Token} (h : t.Spelled) (hk : t.kind = .kwThis) : t.lexeme = "this" := by
  have hword := h (by rw [hk]; rfl)
  rw [hk] at hword
  have hmem := TokenKind.eq_of_ofWord .kwThis (by decide) hword.symm
  simpa [TokenKind.words] using hmem

namespace Item

theorem kind_cut {c : Char} {cs text : List Char} {kind : TokenKind} (h : (cut c cs).1 = token kind text)
    (hk : kind.isWord) : kind = .ofWord (String.ofList text) := by
  have hmarks : ∀ p ∈ marks, p.2.isWord = false := by decide
  have hextensible : ∀ p ∈ extensible, p.2.1.isWord = false ∧ p.2.2.isWord = false := by decide
  unfold cut at h
  split at h
  · next k hl =>
    obtain ⟨l₁, l₂, hm, -⟩ := List.lookup_eq_some_iff.1 hl
    have := hmarks (c, k) (by simp [hm])
    simp_all
  split at h
  · next longer shorter hl =>
    obtain ⟨l₁, l₂, hm, -⟩ := List.lookup_eq_some_iff.1 hl
    have := hextensible (c, longer, shorter) (by simp [hm])
    split at h <;> simp_all
  split at h
  · split at h
    · cases h
    · cases h; cases hk
  split at h
  · cases h
  split at h
  · split at h
    · cases h
    · cases h; cases hk
  split at h
  · cases h; cases hk
  split at h
  · cases h; rfl
  · cases h

theorem kind_ofChars {cs text : List Char} {kind : TokenKind} (h : token kind text ∈ ofChars cs)
    (hk : kind.isWord) : kind = .ofWord (String.ofList text) := by
  fun_induction ofChars cs with
  | case1 => cases h
  | case2 c cs ih =>
    rcases List.mem_cons.1 h with h | h
    · exact kind_cut h.symm hk
    · exact ih h

end Item

theorem Scan.mem_tokens_ofItems {t : Token} (is : List Item) : ∀ line, t ∈ (Scan.ofItems line is).tokens →
    ∃ text, Item.token t.kind text ∈ is ∧ t.lexeme = String.ofList text ∧ t.literal = Item.literal t.kind text := by
  induction is with
  | nil => exact fun _ h => nomatch h
  | cons i is ih =>
    intro line h
    rcases List.mem_append.1 h with h | h
    · cases i with
      | token kind text =>
        obtain rfl : t = _ := List.mem_singleton.1 h
        exact ⟨text, List.mem_cons_self, rfl, rfl⟩
      | blank | comment | unexpected | unclosed => cases h
    · obtain ⟨text, hm, hl⟩ := ih _ h
      exact ⟨text, List.mem_cons_of_mem i hm, hl⟩

theorem Scan.spelled_ofText (source : String) : ∀ t ∈ (Scan.ofText source).tokens, t.Spelled := by
  intro t ht hk
  obtain ⟨text, hm, hl, -⟩ := Scan.mem_tokens_ofItems _ 1 ht
  rw [hl]
  exact Item.kind_ofChars hm hk

end Lox
