import Lox.Proofs.Token.Joined

/-! Texts that are spaced out. The words of a text, written again in order with blanks and comments between them, are
scanned as the tokens that they were cut as, whatever stood between them before. -/

namespace Lox

/-- What is told of a token apart from its line. -/
def Token.content (t : Token) : TokenKind × String × Literal := (t.kind, t.lexeme, t.literal)

namespace Item

variable {i : Item} {c s : Char} {cs : List Char}

/-- The text of a legal item is cut as that item where nothing follows it. -/
theorem Legal.cut_alone (h : i.Legal) (ht : i.text = c :: cs) : cut c cs = (i, []) := by
  have hcut := text_cut_append c cs
  have hwhole : i.text ++ [] = c :: cs := (List.append_nil _).trans ht
  obtain ⟨-, heq | hlt⟩ := h.eq_cut_or_lt hwhole
  · rw [← heq, ht] at hcut
    exact Prod.ext heq.symm (List.append_right_eq_self.1 hcut)
  · have hlength := congrArg List.length hcut
    rw [List.length_append, ← ht] at hlength
    exact absurd (hlt.trans_le (Nat.le_of_add_right_le hlength.le)) (Nat.lt_irrefl _)

/-- It is cut so in front of a blank as well, a comment only where the blank ends its line. -/
theorem Legal.cut_spaced (h : i.Legal) (ht : i.text = c :: cs) (hs : isSpace s)
    (hcomment : s = '\n' ∨ ∀ text, i ≠ Item.comment text) (rest : List Char) :
    cut c (cs ++ s :: rest) = (i, s :: rest) := by
  have halone := h.cut_alone ht
  have hunclosed : ∀ text, (cut c cs).1 ≠ unclosed text := by
    rw [halone]
    rintro text rfl
    exact not_legal_unclosed h
  rw [cut_append_space hs hunclosed (by rwa [halone]), halone]
  rfl

end Item

/-- A piece of what stands between tokens: a blank, or a comment with the end of its line. -/
inductive Filler where
  | blank (c : Char) (isSpace : Item.isSpace c)
  | comment (text : List Char) (oneLine : '\n' ∉ text)

namespace Filler

def chars : Filler → List Char
  | blank c _ => [c]
  | comment text _ => '/' :: '/' :: text ++ ['\n']

def items : Filler → List Item
  | blank c _ => [.blank c]
  | comment text _ => [.comment ('/' :: '/' :: text), .blank '\n']

theorem ofChars_chars_append (f : Filler) (rest : List Char) :
    Item.ofChars (f.chars ++ rest) = f.items ++ Item.ofChars rest := by
  cases f with
  | blank c hc =>
    rw [chars, List.singleton_append, Item.ofChars, Item.cut_space hc]
    rfl
  | comment text htext =>
    have hlegal : (Item.comment ('/' :: '/' :: text)).Legal := .comment fun c hc h => htext (h ▸ hc)
    have hcut := hlegal.cut_spaced rfl (s := '\n') (by decide) (.inl rfl) rest
    have hchars : (comment text htext).chars ++ rest = '/' :: ('/' :: text ++ '\n' :: rest) := by simp [chars]
    rw [hchars, Item.ofChars, hcut, Item.ofChars, Item.cut_space (by decide)]
    rfl

end Filler

/-- What separates two tokens: a blank, and whatever blanks and comments follow it. -/
structure Gap where
  first : Char
  isSpace : Item.isSpace first
  fillers : List Filler

namespace Gap

def chars (g : Gap) : List Char := g.first :: g.fillers.flatMap Filler.chars

def items (g : Gap) : List Item := .blank g.first :: g.fillers.flatMap Filler.items

/-- Words with a gap between any two neighbours. -/
def between (gap : Nat → Gap) : List (List Char) → List Char
  | [] => []
  | [word] => word
  | word :: next :: words => word ++ (gap 0).chars ++ between (fun n => gap (n + 1)) (next :: words)

theorem ofChars_fillers_append (fs : List Filler) (rest : List Char) :
    Item.ofChars (fs.flatMap Filler.chars ++ rest) = fs.flatMap Filler.items ++ Item.ofChars rest := by
  induction fs with
  | nil => rfl
  | cons f fs ih =>
    rw [List.flatMap_cons, List.flatMap_cons, List.append_assoc, f.ofChars_chars_append, ih, List.append_assoc]

theorem ofChars_chars_append (g : Gap) (rest : List Char) :
    Item.ofChars (g.chars ++ rest) = g.items ++ Item.ofChars rest := by
  rw [chars, List.cons_append, Item.ofChars, Item.cut_space g.isSpace, ofChars_fillers_append]
  rfl

/-- Nothing in a gap is a token, and nothing is wrong with it. -/
theorem silent (g : Gap) : ∀ i ∈ g.items, i.spelling? = none ∧ i.problem? = none := by
  refine List.forall_mem_cons.2 ⟨⟨rfl, rfl⟩, fun i hi => ?_⟩
  obtain ⟨f, -, hf⟩ := List.mem_flatMap.1 hi
  cases f with
  | blank c =>
    rw [List.mem_singleton.1 hf]
    exact ⟨rfl, rfl⟩
  | comment text =>
    rcases List.mem_cons.1 hf with rfl | hf
    · exact ⟨rfl, rfl⟩
    · rw [List.mem_singleton.1 hf]
      exact ⟨rfl, rfl⟩

end Gap

namespace Item

/-- The items of words with gaps between them: the words are the tokens that they are the texts of. -/
theorem spelled_between (spellings : List (TokenKind × List Char)) : (∀ p ∈ spellings, (token p.1 p.2).Legal) →
    ∀ gap : Nat → Gap, (ofChars (Gap.between gap (spellings.map Prod.snd))).filterMap spelling? = spellings ∧
      (ofChars (Gap.between gap (spellings.map Prod.snd))).filterMap problem? = [] := by
  induction spellings with
  | nil =>
    intro _ gap
    rw [List.map_nil, Gap.between, ofChars]
    exact ⟨rfl, rfl⟩
  | cons p rest ih =>
    obtain ⟨kind, word⟩ := p
    intro h gap
    obtain ⟨hword, hrest⟩ := List.forall_mem_cons.1 h
    obtain ⟨c, cs, rfl⟩ := List.exists_cons_of_ne_nil hword.text_ne_nil
    cases rest with
    | nil =>
      rw [List.map_cons, List.map_nil, Gap.between, ofChars, hword.cut_alone rfl, ofChars]
      exact ⟨rfl, rfl⟩
    | cons next rest =>
      obtain ⟨hspellings, hproblems⟩ := ih hrest fun n => gap (n + 1)
      have hitems : ofChars (Gap.between gap (((kind, c :: cs) :: next :: rest).map Prod.snd)) =
          token kind (c :: cs) :: ((gap 0).items ++
            ofChars (Gap.between (fun n => gap (n + 1)) ((next :: rest).map Prod.snd))) := by
        rw [← Gap.ofChars_chars_append]
        simp only [List.map_cons, Gap.between, List.cons_append, List.append_assoc]
        rw [ofChars, Gap.chars, List.cons_append, hword.cut_spaced rfl (gap 0).isSpace (.inr (by simp))]
      have hgap : (gap 0).items.filterMap spelling? = [] ∧ (gap 0).items.filterMap problem? = [] :=
        ⟨List.filterMap_eq_nil_iff.2 fun i hi => ((gap 0).silent i hi).1,
          List.filterMap_eq_nil_iff.2 fun i hi => ((gap 0).silent i hi).2⟩
      rw [hitems, List.filterMap_cons, List.filterMap_cons, List.filterMap_append, List.filterMap_append, hgap.1,
        hgap.2, hspellings, hproblems]
      exact ⟨rfl, rfl⟩

/-- What a token with such a text is apart from its line. -/
def content (p : TokenKind × List Char) : TokenKind × String × Literal := (p.1, String.ofList p.2, literal p.1 p.2)

end Item

namespace Scan

theorem map_content_ofItems (is : List Item) (line : Int) :
    (ofItems line is).tokens.map Token.content = (is.filterMap Item.spelling?).map Item.content := by
  induction is generalizing line with
  | nil => rfl
  | cons i is ih =>
    rw [ofItems, List.map_append, ih]
    cases i <;> rfl

theorem map_problem_ofItems (is : List Item) (line : Int) :
    (ofItems line is).errors.map LexicalError.problem = is.filterMap Item.problem? := by
  induction is generalizing line with
  | nil => rfl
  | cons i is ih =>
    rw [ofItems, List.map_append, ih]
    cases i <;> rfl

theorem map_lexeme_ofItems (is : List Item) (line : Int) :
    (ofItems line is).tokens.map (·.lexeme.toList) = (is.filterMap Item.spelling?).map Prod.snd := by
  have h := congrArg (List.map fun p => p.2.1.toList) (map_content_ofItems is line)
  rw [List.map_map, List.map_map] at h
  refine h.trans (List.map_congr_left fun p _ => ?_)
  exact String.toList_ofList

/-- The words of any text, set apart by any gaps, are scanned as the same tokens but for the lines, and nothing is
reported of them. -/
theorem rescans_spaced (source : String) (gap : Nat → Gap) :
    let words := (ofText source).tokens.map (·.lexeme.toList)
    let spaced := ofText (String.ofList (Gap.between gap words))
    spaced.allTokens.map Token.content = (ofText source).allTokens.map Token.content ∧ spaced.diagnostics = [] := by
  intro words spaced
  let spellings := (Item.ofChars source.toList).filterMap Item.spelling?
  have hlegal : ∀ p ∈ spellings, (Item.token p.1 p.2).Legal := by
    intro p hp
    obtain ⟨i, hi, hspelling⟩ := List.mem_filterMap.1 hp
    cases i with
    | token kind text =>
      cases hspelling
      exact Item.Legal.of_mem_ofChars hi
    | blank | comment | unexpected | unclosed => cases hspelling
  have hwords : words = spellings.map Prod.snd := map_lexeme_ofItems _ 1
  obtain ⟨hspellings, hproblems⟩ := Item.spelled_between spellings hlegal gap
  have hspaced : spaced = ofItems 1 (Item.ofChars (Gap.between gap (spellings.map Prod.snd))) := by
    show ofText _ = _
    rw [ofText, String.toList_ofList, hwords]
  have htokens : spaced.tokens.map Token.content = (ofText source).tokens.map Token.content := by
    rw [hspaced, ofText, map_content_ofItems, map_content_ofItems, hspellings]
  have herrors : spaced.errors = [] := by
    rw [hspaced]
    exact List.map_eq_nil_iff.1 ((map_problem_ofItems _ 1).trans hproblems)
  constructor
  · rw [allTokens, allTokens, List.map_append, List.map_append, htokens]
    rfl
  · rw [diagnostics, herrors]
    rfl

end Scan
end Lox
