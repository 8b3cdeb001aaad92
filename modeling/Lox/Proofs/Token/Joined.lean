import Lox.Proofs.Token.Apart
import Mathlib

/-! Texts joined line by line. A text in which no string is left open is scanned as it is alone when another follows on
the next line, and the other as it is alone too, but for its lines. -/

namespace Lox

def Token.shift (k : Int) (t : Token) : Token := { t with line := t.line + k }

def LexicalError.shift (k : Int) (e : LexicalError) : LexicalError := { e with line := e.line + k }

def Diagnostic.shift (k : Int) : Diagnostic → Diagnostic
  | source line place message => source (line + k) place message
  | runtime line message => runtime (line + k) message

namespace Scan

/-- A scan `k` lines further down. -/
def shift (k : Int) (s : Scan) : Scan :=
  ⟨s.tokens.map (Token.shift k), s.errors.map (LexicalError.shift k), s.lastLine + k⟩

/-- A scan with another one behind it. -/
def andThen (s s' : Scan) : Scan := ⟨s.tokens ++ s'.tokens, s.errors ++ s'.errors, s'.lastLine⟩

/-- Whether no string is left open. -/
def Terminated (s : Scan) : Prop := ∀ e ∈ s.errors, e.problem ≠ .unterminatedString

theorem ofItems_append (is js : List Item) (line : Int) :
    ofItems line (is ++ js) = (ofItems line is).andThen (ofItems (ofItems line is).lastLine js) := by
  induction is generalizing line with
  | nil => rfl
  | cons i is ih => simp only [List.cons_append, ofItems, andThen, ih, List.append_assoc]

theorem ofItems_shift (k : Int) (is : List Item) (line : Int) : ofItems (line + k) is = (ofItems line is).shift k := by
  induction is generalizing line with
  | nil => rfl
  | cons i is ih =>
    have hafter : line + k + i.newlines = line + i.newlines + k := Int.add_right_comm ..
    simp only [ofItems, hafter, ih, shift, List.map_append]
    cases i <;> rfl

theorem lastLine_ofItems (is : List Item) (line : Int) :
    (ofItems line is).lastLine = line + (is.flatMap Item.text).count '\n' := by
  induction is generalizing line with
  | nil => simp [ofItems]
  | cons i is ih =>
    rw [ofItems, ih, List.flatMap_cons, List.count_append, Item.newlines]
    omega

theorem lastLine_ofText (source : String) : (ofText source).lastLine = 1 + source.toList.count '\n' := by
  rw [ofText, lastLine_ofItems, Item.flatMap_text_ofChars]

/-- An item that is left open is told of. -/
theorem Terminated.ne_unclosed {is : List Item} {line : Int} (h : (ofItems line is).Terminated) {i : Item} (hi : i ∈ is)
    (text : List Char) : i ≠ .unclosed text := by
  rintro rfl
  obtain ⟨js, ks, rfl⟩ := List.append_of_mem hi
  let told : LexicalError := ⟨(ofItems line js).lastLine + (Item.unclosed text).newlines, .unterminatedString⟩
  have hmem : told ∈ (ofItems line (js ++ .unclosed text :: ks)).errors := by
    rw [ofItems_append]
    exact List.mem_append_right _ List.mem_cons_self
  exact h told hmem rfl

theorem ofText_joined {a : String} (h : (ofText a).Terminated) (b : String) :
    ofText (a ++ "\n" ++ b) = (ofText a).andThen ((ofText b).shift (1 + a.toList.count '\n')) := by
  have hitems : Item.ofChars (a ++ "\n" ++ b).toList =
      Item.ofChars a.toList ++ .blank '\n' :: Item.ofChars b.toList := by
    rw [String.toList_append, String.toList_append, List.append_assoc]
    exact Item.ofChars_append_newline (fun i hi => h.ne_unclosed hi) _
  have hbreak : ofItems (ofText a).lastLine (.blank '\n' :: Item.ofChars b.toList) =
      ofItems (1 + (1 + a.toList.count '\n')) (Item.ofChars b.toList) := by
    rw [lastLine_ofText]
    show ofItems (1 + a.toList.count '\n' + 1) _ = _
    rw [Int.add_comm (1 + _) 1]
  unfold ofText at hbreak ⊢
  rw [hitems, ofItems_append, hbreak, ofItems_shift]

theorem diagnostics_shift (s : Scan) (k : Int) : (s.shift k).diagnostics = s.diagnostics.map (Diagnostic.shift k) := by
  simp only [diagnostics, shift, List.map_map]
  rfl

theorem allTokens_shift (s : Scan) (k : Int) : (s.shift k).allTokens = s.allTokens.map (Token.shift k) := by
  simp only [allTokens, shift, List.map_append]
  rfl

end Scan

/-- Braces are counted line by line. -/
theorem braceDepth_joined {a : String} (h : (Scan.ofText a).Terminated) (b : String) :
    braceDepth (a ++ "\n" ++ b) = braceDepth a + braceDepth b := by
  have hkind (k : Int) (kind : TokenKind) :
      (fun t : Token => decide (t.kind = kind)) ∘ Token.shift k = fun t => decide (t.kind = kind) := rfl
  simp only [braceDepth, Scan.ofText_joined h, Scan.andThen, Scan.shift, List.countP_append, List.countP_map, hkind]
  omega

theorem braceDepth_lines (lines : List String) : (∀ line ∈ lines, (Scan.ofText line).Terminated) →
    braceDepth ("\n".intercalate lines) = (lines.map braceDepth).sum := by
  induction lines with
  | nil =>
    intro _
    rw [String.intercalate_nil, braceDepth, Scan.ofText, String.toList_empty, Item.ofChars]
    rfl
  | cons line rest ih =>
    intro h
    obtain ⟨hline, hrest⟩ := List.forall_mem_cons.1 h
    cases rest with
    | nil => simp
    | cons next rest =>
      rw [List.map_cons, List.sum_cons, String.intercalate_cons_cons, braceDepth_joined hline, ih hrest]

/-- What a text with no open string is scanned as is what it is scanned as alone, and behind it on the next line stands
what the other text is, as many lines further down. So braces are counted line by line. -/
theorem scans_line_by_line :
    (∀ a b : String, (Scan.ofText a).Terminated →
      let lines : Int := 1 + a.toList.count '\n'
      (Scan.ofText (a ++ "\n" ++ b)).allTokens =
        (Scan.ofText a).allTokens.dropLast ++ (Scan.ofText b).allTokens.map (Token.shift lines) ∧
      (Scan.ofText (a ++ "\n" ++ b)).diagnostics =
        (Scan.ofText a).diagnostics ++ (Scan.ofText b).diagnostics.map (Diagnostic.shift lines)) ∧
    ∀ lines : List String, (∀ line ∈ lines, (Scan.ofText line).Terminated) →
      braceDepth ("\n".intercalate lines) = (lines.map braceDepth).sum := by
  refine ⟨fun a b h => ?_, braceDepth_lines⟩
  intro lines
  have hjoined := Scan.ofText_joined h b
  constructor
  · have hlast : (Scan.ofText a).allTokens.dropLast = (Scan.ofText a).tokens := List.dropLast_concat
    rw [hlast, ← Scan.allTokens_shift, hjoined]
    exact List.append_assoc ..
  · rw [← Scan.diagnostics_shift, hjoined]
    exact List.map_append ..

/-- A stray character and a quote in a comment on the one line, a string over the two others: the closing brace is on
the third. -/
theorem scans_line_by_line_marred :
    let marred := "\x7b $ // \""
    let spanning := "\"a\nb\" \x7d"
    (Scan.ofText (marred ++ "\n" ++ spanning)).allTokens.map Token.line = [1, 3, 3, 3] ∧
      (Scan.ofText (marred ++ "\n" ++ spanning)).diagnostics = (Scan.ofText marred).diagnostics ∧
      braceDepth ("\n".intercalate [marred, spanning]) = 0 := by
  intro marred spanning
  have hmarred : (Scan.ofText marred).errors = [⟨1, .unexpectedCharacter '$'⟩] := by cbv
  have hspanning : (Scan.ofText spanning).errors = [] := by cbv
  have hopen : (Scan.ofText marred).Terminated := by simp [Scan.Terminated, hmarred]
  have hclosed : (Scan.ofText spanning).Terminated := by simp [Scan.Terminated, hspanning]
  obtain ⟨htokens, hdiagnostics⟩ := scans_line_by_line.1 marred spanning hopen
  have hdepth := scans_line_by_line.2 [marred, spanning] (by simp [hopen, hclosed])
  have hdepths : [marred, spanning].map braceDepth = [1, -1] := by cbv
  refine ⟨?_, ?_, ?_⟩
  · rw [htokens]
    cbv
  · rw [hdiagnostics, Scan.diagnostics, Scan.diagnostics, hspanning]
    exact List.append_nil _
  · rw [hdepth, hdepths]
    rfl

end Lox
