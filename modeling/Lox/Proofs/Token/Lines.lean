import Lox.Proofs.Token.Joined

/-! The lines of a scan. A token stands on the line on which it ends, counted in the text before its end; an unexpected
character is reported on its line, an open string on the last one. -/

namespace Lox

/-- Items, each with the text before it. -/
def Item.placed (before : List Char) : List Item → List (List Char × Item)
  | [] => []
  | i :: is => (before, i) :: placed (before ++ i.text) is

/-- Whether a token is the item at a place of a text, on the line on which that item ends. -/
structure Token.StandsAt (source : List Char) (t : Token) (p : List Char × Item) : Prop where
  item : p.2 = .token t.kind t.lexeme.toList
  place : p.1 ++ t.lexeme.toList <+: source
  line : t.line = 1 + (p.1 ++ t.lexeme.toList).count '\n'

/-- Whether a diagnostic tells of the item at a place of a text. An open string goes on to the end of the text. -/
inductive Diagnostic.TellsOf (source : List Char) : Diagnostic → List Char × Item → Prop where
  | unexpected {before : List Char} {c : Char} : before ++ [c] <+: source →
      TellsOf source (.source (1 + before.count '\n') "" (LexicalProblem.message (.unexpectedCharacter c)))
        (before, .unexpected c)
  | unclosed {before text : List Char} : before ++ text = source →
      TellsOf source (.source (1 + source.count '\n') "" (LexicalProblem.message .unterminatedString))
        (before, .unclosed text)

namespace Item

/-- A line break is an item of its own, and nothing is wrong with it. -/
theorem ne_newline_of_cut {c d : Char} {cs : List Char} (h : (cut c cs).1 = unexpected d) : d ≠ '\n' := by
  rcases legal_cut c cs with hl | ⟨-, hl⟩ | ⟨-, hl⟩
  · rw [h] at hl
    exact absurd hl not_legal_unexpected
  · rw [hl] at h
    cases h
  · rw [hl] at h
    cases h
    rintro rfl
    rw [cut_space (by decide)] at hl
    cases hl

/-- Nothing follows an open string. -/
theorem cut_rest_of_unclosed {c : Char} {cs text : List Char} (h : (cut c cs).1 = unclosed text) :
    (cut c cs).2 = [] := by
  rcases legal_cut c cs with hl | ⟨-, hl⟩ | ⟨-, hl⟩
  · rw [h] at hl
    exact absurd hl not_legal_unclosed
  · rw [hl]
  · rw [hl] at h
    cases h

theorem append_cut {before source cs : List Char} {c : Char} (h : before ++ c :: cs = source) :
    before ++ (cut c cs).1.text ++ (cut c cs).2 = source := by
  rw [List.append_assoc, text_cut_append, h]

end Item

namespace Scan

variable {source before cs : List Char}

/-- The line after an item, where lines are counted in the text before. -/
theorem line_after (before : List Char) (i : Item) :
    (1 + before.count '\n' + i.newlines : Int) = 1 + (before ++ i.text).count '\n' := by
  rw [List.count_append, Item.newlines]
  omega

theorem standsAt_tokens (h : before ++ cs = source) :
    List.Forall₂ (Token.StandsAt source) (ofItems (1 + before.count '\n') (Item.ofChars cs)).tokens
      ((Item.placed before (Item.ofChars cs)).filter (·.2.spelling?.isSome)) := by
  fun_induction Item.ofChars cs generalizing before with
  | case1 => exact .nil
  | case2 c cs ih =>
    have hrest := Item.append_cut h
    have ih := ih hrest
    rw [ofItems, Item.placed, line_after]
    cases hi : (Item.cut c cs).1 with
    | blank | comment | unexpected | unclosed =>
      rw [hi] at ih
      exact ih
    | token kind text =>
      rw [hi] at ih hrest
      refine .cons ⟨?_, ?_, ?_⟩ ih
      · rw [String.toList_ofList]
      · rw [String.toList_ofList]
        exact ⟨_, hrest⟩
      · rw [String.toList_ofList]
        rfl

theorem tellsOf_diagnostics (h : before ++ cs = source) :
    List.Forall₂ (Diagnostic.TellsOf source) (ofItems (1 + before.count '\n') (Item.ofChars cs)).diagnostics
      ((Item.placed before (Item.ofChars cs)).filter (·.2.problem?.isSome)) := by
  fun_induction Item.ofChars cs generalizing before with
  | case1 => exact .nil
  | case2 c cs ih =>
    have hrest := Item.append_cut h
    have ih := ih hrest
    rw [ofItems, Item.placed, line_after]
    cases hi : (Item.cut c cs).1 with
    | blank | comment | token =>
      rw [hi] at ih
      exact ih
    | unexpected d =>
      rw [hi] at ih hrest
      have hline : (before ++ [d]).count '\n' = before.count '\n' := by
        rw [List.count_append, List.count_singleton, if_neg (by simpa using Item.ne_newline_of_cut hi)]
        rfl
      refine .cons ?_ ih
      show Diagnostic.TellsOf source (.source (1 + ((before ++ [d]).count '\n' : Nat)) _ _) _
      rw [hline]
      exact .unexpected ⟨_, hrest⟩
    | unclosed text =>
      rw [Item.cut_rest_of_unclosed hi, List.append_nil] at hrest
      rw [hi] at ih hrest
      refine .cons ?_ ih
      show Diagnostic.TellsOf source (.source (1 + ((before ++ text).count '\n' : Nat)) _ _) _
      rw [show before ++ text = source from hrest]
      exact .unclosed hrest

/-- Lines only go up, and the ending token is on the last. -/
theorem le_line_of_mem (is : List Item) (line : Int) : ∀ t ∈ (ofItems line is).allTokens, line ≤ t.line := by
  induction is generalizing line with
  | nil =>
    intro t ht
    rw [List.mem_singleton.1 ht]
    exact Int.le_refl _
  | cons i is ih =>
    have hafter : line ≤ line + i.newlines := Int.le_add_of_nonneg_right (Int.natCast_nonneg _)
    have hrest : ∀ t ∈ (ofItems (line + i.newlines) is).allTokens, line ≤ t.line :=
      fun t ht => Int.le_trans hafter (ih _ t ht)
    cases i with
    | blank | comment | unexpected | unclosed => exact hrest
    | token kind text => exact List.forall_mem_cons.2 ⟨hafter, hrest⟩

theorem pairwise_line (is : List Item) (line : Int) : (ofItems line is).allTokens.Pairwise (·.line ≤ ·.line) := by
  induction is generalizing line with
  | nil => exact List.pairwise_singleton ..
  | cons i is ih =>
    cases i with
    | blank | comment | unexpected | unclosed => exact ih _
    | token kind text => exact List.pairwise_cons.2 ⟨le_line_of_mem is _, ih _⟩

/-- Of every text, each token is on the line that is reached at its end and each diagnostic on the line of what it tells
of; the scan ends on the last line, and lines never decrease. -/
theorem lines_counted (source : String) : ∃ items,
    (∀ is, Item.Cuts source.toList is ↔ is = items) ∧
    List.Forall₂ (Token.StandsAt source.toList) (ofText source).tokens
      ((Item.placed [] items).filter (·.2.spelling?.isSome)) ∧
    List.Forall₂ (Diagnostic.TellsOf source.toList) (ofText source).diagnostics
      ((Item.placed [] items).filter (·.2.problem?.isSome)) ∧
    (ofText source).lastLine = 1 + source.toList.count '\n' ∧
    (ofText source).allTokens = (ofText source).tokens ++ [Token.ending (1 + source.toList.count '\n')] ∧
    (ofText source).allTokens.Pairwise (·.line ≤ ·.line) := by
  have hlast := lastLine_ofText source
  have hending : (ofText source).allTokens =
      (ofText source).tokens ++ [Token.ending (1 + source.toList.count '\n')] := by
    rw [← hlast]
    rfl
  have hall : [] ++ source.toList = source.toList := rfl
  exact ⟨Item.ofChars source.toList, fun _ => Item.cuts_iff, standsAt_tokens hall, tellsOf_diagnostics hall, hlast,
    hending, pairwise_line _ 1⟩

end Scan
end Lox
