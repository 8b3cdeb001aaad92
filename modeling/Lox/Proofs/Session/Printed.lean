import Lox.Session
import Lox.Proofs.Grammar.Yields
import Lox.Proofs.Tree.Equality
import Lox.Proofs.Tree.Printable
import Mathlib

/-! The text of a program says which statements it has, as plain data and with the places of its booleans. Every
statement is one line, and the line is that of one outline only. -/

namespace Lox

/-! Lines -/

theorem splitOn_lines {lines : List (List Char)} (h : ∀ l ∈ lines, '\n' ∉ l) :
    (['\n'].intercalate lines).splitOn '\n' = if lines = [] then [[]] else lines := by
  split
  · next hnil =>
    rw [hnil]
    rfl
  · next hne => exact List.splitOn_intercalate '\n' h hne

/-- Lines that are not empty can be told from their text. -/
theorem lines_inj {lines lines' : List (List Char)} (h : ∀ l ∈ lines, '\n' ∉ l ∧ l ≠ [])
    (h' : ∀ l ∈ lines', '\n' ∉ l ∧ l ≠ []) (heq : ['\n'].intercalate lines = ['\n'].intercalate lines') :
    lines = lines' := by
  have hsplit := congrArg (List.splitOn '\n') heq
  rw [splitOn_lines fun l hl => (h l hl).1, splitOn_lines fun l hl => (h' l hl).1] at hsplit
  split at hsplit
  · next hnil =>
    split at hsplit
    · next hnil' => rw [hnil, hnil']
    · exact absurd rfl (h' [] (hsplit ▸ List.mem_singleton_self [])).2
  · split at hsplit
    · exact absurd rfl (h [] (hsplit ▸ List.mem_singleton_self [])).2
    · exact hsplit

namespace Outline

variable {o p : Outline} {text text' : String}

/-- One outline has one text, and one text is that of one outline. -/
theorem Writes.text_eq_iff (h : o.Writes text) (h' : p.Writes text') : text = text' ↔ o = p := by
  constructor
  · rintro rfl
    have hchars : o.form.chars ++ [] = p.form.chars ++ [] := by rw [h.spells.chars, h'.spells.chars]
    obtain ⟨hform, -⟩ := Form.chars_append_inj o.form p.form h.spells.legible h'.spells.legible
      Form.stops_nil Form.stops_nil hchars
    rw [← h.outline, ← h'.outline, hform]
  · rintro rfl
    exact String.toList_inj.1 (h.spells.chars.symm.trans h'.spells.chars)

theorem Writes.line (h : o.Writes text) : '\n' ∉ text.toList ∧ text.toList ≠ [] := by
  rw [← h.spells.chars]
  exact ⟨fun hn => h.spells.legible.ne_newline _ hn rfl, h.spells.legible.chars_ne_nil⟩

end Outline

/-! Programs -/

variable {ss ss' : List Stmt}

theorem Stmt.toList_lines (ss : List Stmt) : (lines ss).toList = ['\n'].intercalate (ss.map (·.text.toList)) := by
  rw [lines, String.toList_intercalate, List.map_map]
  rfl

theorem Stmt.texts_eq_iff (h : ∀ s ∈ ss, s.outline.Writes s.text) (h' : ∀ s ∈ ss', s.outline.Writes s.text) :
    ss.map Stmt.text = ss'.map Stmt.text ↔ ss.map Stmt.outline = ss'.map Stmt.outline := by
  induction ss generalizing ss' with
  | nil => simp
  | cons s ss ih =>
    cases ss' with
    | nil => simp
    | cons s' ss' =>
      obtain ⟨hs, hss⟩ := List.forall_mem_cons.1 h
      obtain ⟨hs', hss'⟩ := List.forall_mem_cons.1 h'
      rw [List.map_cons, List.map_cons, List.map_cons, List.map_cons, List.cons.injEq, List.cons.injEq,
        hs.text_eq_iff hs', ih hss hss']

theorem Stmt.forall_line (h : ∀ s ∈ ss, s.outline.Writes s.text) :
    ∀ l ∈ ss.map (·.text.toList), '\n' ∉ l ∧ l ≠ [] := by
  intro l hl
  obtain ⟨s, hs, rfl⟩ := List.mem_map.1 hl
  exact (h s hs).line

theorem Stmt.lines_eq_iff (h : ∀ s ∈ ss, s.outline.Writes s.text) (h' : ∀ s ∈ ss', s.outline.Writes s.text) :
    lines ss = lines ss' ↔ ss.map Stmt.outline = ss'.map Stmt.outline := by
  rw [← texts_eq_iff h h']
  constructor
  · intro heq
    have hchars := congrArg String.toList heq
    rw [toList_lines, toList_lines] at hchars
    have htexts := congrArg (List.map String.ofList) (lines_inj (forall_line h) (forall_line h') hchars)
    simpa [Function.comp_def] using htexts
  · intro heq
    rw [lines, heq, lines]

theorem Stmt.map_outline_eq_iff (h : ∀ s ∈ ss, s.outline.Tidy) (h' : ∀ s ∈ ss', s.outline.Tidy)
    (hx : ∀ s ∈ ss, ∀ x ∈ s.outline.numbers, x.isFinite) :
    ss.map Stmt.outline = ss'.map Stmt.outline ↔ (Outline.ofStatements ss).same (.ofStatements ss') ∧
      (Outline.ofStatements ss).booleans = (Outline.ofStatements ss').booleans := by
  have hnumbers : ∀ x ∈ (Outline.ofStatements ss).numbers, x.isFinite := by
    intro x hm
    obtain ⟨o, ho, hxo⟩ := Outline.mem_numbersAll.1 hm
    obtain ⟨s, hs, rfl⟩ := List.mem_map.1 ho
    exact hx s hs x hxo
  have htidy : (Outline.ofStatements ss).Tidy := .list (List.forall_mem_map.2 h)
  have htidy' : (Outline.ofStatements ss').Tidy := .list (List.forall_mem_map.2 h')
  rw [htidy.same_iff htidy' hnumbers, Outline.ofStatements, Outline.ofStatements, Outline.list.injEq]

/-! Sources -/

theorem Reading.parsed_ofText (depth : Nat) (source : String) :
    ∀ s ∈ (ofText depth source).statements, s.Parsed Token.Lexed :=
  Program.parsed_ofTokens (Scan.lexed_ofText source)

/-- Two texts, whatever is wrong with them, are printed alike if and only if their statements are equal as plain data
and have their booleans at the same places, provided that the numbers in them are finite. What is printed is a line
for each statement and falls into these lines again. Nothing keeps a program from being printed but its height. -/
theorem printed_alike_iff (depth levels : Nat) (source source' : String)
    (hfinite : ∀ s ∈ (Reading.ofText depth source).statements, ∀ x ∈ s.outline.numbers, x.isFinite)
    (hfinite' : ∀ s ∈ (Reading.ofText depth source').statements, ∀ x ∈ s.outline.numbers, x.isFinite) :
    let ss := (Reading.ofText depth source).statements
    let ss' := (Reading.ofText depth source').statements
    (∀ text text', renderProgram levels ss = .ok text → renderProgram levels ss' = .ok text' →
        (text = text' ↔ (Outline.ofStatements ss).same (.ofStatements ss') ∧
          (Outline.ofStatements ss).booleans = (Outline.ofStatements ss').booleans)) ∧
      (renderProgram levels ss =
        if ∀ s ∈ ss, s.outline.height ≤ levels then .ok (Stmt.lines ss) else .error .tooDeep) ∧
      (∀ s ∈ ss, '\n' ∉ s.text.toList) ∧
      (ss ≠ [] → (Stmt.lines ss).toList.splitOn '\n' = ss.map (·.text.toList)) := by
  intro ss ss'
  have hparsed := Reading.parsed_ofText depth source
  have hparsed' := Reading.parsed_ofText depth source'
  have hwrites : ∀ s ∈ ss, s.outline.Writes s.text := fun s hs => (hparsed s hs).writes (hfinite s hs)
  have hwrites' : ∀ s ∈ ss', s.outline.Writes s.text := fun s hs => (hparsed' s hs).writes (hfinite' s hs)
  have hknown : ∀ s ∈ ss, s.unknownKind? = none := fun s hs => (hparsed s hs).formed.unknownKind?
  have hknown' : ∀ s ∈ ss', s.unknownKind? = none := fun s hs => (hparsed' s hs).formed.unknownKind?
  refine ⟨?_, renderProgram_eq hknown levels, fun s hs => (hwrites s hs).line.1, ?_⟩
  · intro text text' ht ht'
    rw [eq_lines_of_renderProgram hknown ht, eq_lines_of_renderProgram hknown' ht']
    rw [Stmt.lines_eq_iff hwrites hwrites']
    exact Stmt.map_outline_eq_iff (fun s hs => (hparsed s hs).tidy) (fun s hs => (hparsed' s hs).tidy) hfinite
  · intro hne
    rw [Stmt.toList_lines, splitOn_lines fun l hl => (Stmt.forall_line hwrites l hl).1,
      if_neg fun hnil => hne (List.map_eq_nil_iff.1 hnil)]

/-- A text with a stray parenthesis, and the same statements written otherwise. -/
def told : String := "a.b=-2.5;\"'\";)"

def retold : String := "a.b = -2.50;\n\"'\";"

theorem ofChars_told : Item.ofChars told.toList =
    [.token .identifier ['a'], .token .dot ['.'], .token .identifier ['b'], .token .equal ['='], .token .minus ['-'],
      .token .number ['2', '.', '5'], .token .semicolon [';'], .token .string ['"', '\'', '"'],
      .token .semicolon [';'], .token .rightParen [')']] := by cbv

theorem ofChars_retold : Item.ofChars retold.toList =
    [.token .identifier ['a'], .token .dot ['.'], .token .identifier ['b'], .blank ' ', .token .equal ['='],
      .blank ' ', .token .minus ['-'], .token .number ['2', '.', '5', '0'], .token .semicolon [';'], .blank '\n',
      .token .string ['"', '\'', '"'], .token .semicolon [';']] := by cbv

theorem printed_alike_iff_told :
    let ss := (Reading.ofText 9 told).statements
    (Reading.ofText 9 told).diagnostics.length = 1 ∧ (Reading.ofText 9 retold).diagnostics = [] ∧
      renderProgram 9 ss = .ok "(; (= (. a b) (- 2.5)))\n(; \"'\")" ∧
        (Outline.ofStatements ss).same (.ofStatements (Reading.ofText 9 retold).statements) ∧
          (Stmt.lines ss).toList.splitOn '\n' = ["(; (= (. a b) (- 2.5)))".toList, "(; \"'\")".toList] := by
  intro ss
  have hfinite : ∀ s ∈ ss, ∀ x ∈ s.outline.numbers, x.isFinite := by
    have hall : (ss.all fun s => s.outline.numbers.all Float.isFinite) = true := by
      unfold ss Reading.ofText Scan.ofText
      rw [ofChars_told]
      rfl
    simpa [List.all_eq_true] using hall
  have hfinite' : ∀ s ∈ (Reading.ofText 9 retold).statements, ∀ x ∈ s.outline.numbers, x.isFinite := by
    have hall : ((Reading.ofText 9 retold).statements.all fun s => s.outline.numbers.all Float.isFinite) = true := by
      unfold Reading.ofText Scan.ofText
      rw [ofChars_retold]
      rfl
    simpa [List.all_eq_true] using hall
  obtain ⟨halike, -, -, hsplit⟩ := printed_alike_iff 9 9 told retold hfinite hfinite'
  have htold : (Reading.ofText 9 told).diagnostics.length = 1 ∧
      renderProgram 9 ss = .ok "(; (= (. a b) (- 2.5)))\n(; \"'\")" ∧
        ss.map (·.text.toList) = ["(; (= (. a b) (- 2.5)))".toList, "(; \"'\")".toList] := by
    unfold ss Reading.ofText Scan.ofText
    rw [ofChars_told]
    exact ⟨rfl, rfl, rfl⟩
  have hretold : (Reading.ofText 9 retold).diagnostics = [] ∧
      renderProgram 9 (Reading.ofText 9 retold).statements = .ok "(; (= (. a b) (- 2.5)))\n(; \"'\")" := by
    unfold Reading.ofText Scan.ofText
    rw [ofChars_retold]
    exact ⟨rfl, rfl⟩
  have hne : ss ≠ [] := by
    intro hnil
    rw [hnil] at htold
    exact absurd htold.2.2 (by simp)
  exact ⟨htold.1, hretold.1, htold.2.1, ((halike _ _ htold.2.1 hretold.2).1 rfl).1, (hsplit hne).trans htold.2.2⟩

/-- Equality as plain data is not enough, since it takes `true` for one. -/
theorem printed_apart_of_true_one :
    let ss := (Reading.ofText 9 "true;").statements
    let ss' := (Reading.ofText 9 "1;").statements
    ((∀ s ∈ ss, ∀ x ∈ s.outline.numbers, x.isFinite) ∧ ∀ s ∈ ss', ∀ x ∈ s.outline.numbers, x.isFinite) ∧
      (Outline.ofStatements ss).same (.ofStatements ss') ∧
        renderProgram 9 ss = .ok "(; true)" ∧ renderProgram 9 ss' = .ok "(; 1)" := by
  intro ss ss'
  have hchars : Item.ofChars "true;".toList = [.token .kwTrue ['t', 'r', 'u', 'e'], .token .semicolon [';']] := by cbv
  have hchars' : Item.ofChars "1;".toList = [.token .number ['1'], .token .semicolon [';']] := by cbv
  have hall : ((ss ++ ss').all fun s => s.outline.numbers.all Float.isFinite) = true := by
    unfold ss ss' Reading.ofText Scan.ofText
    rw [hchars, hchars']
    rfl
  refine ⟨by simpa [List.all_eq_true] using hall, ?_⟩
  unfold ss ss' Reading.ofText Scan.ofText
  rw [hchars, hchars']
  exact ⟨rfl, rfl, rfl⟩

end Lox
