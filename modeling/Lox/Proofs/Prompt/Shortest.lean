import Lox.Proofs.Prompt.Lines
import Lox.Proofs.Token.Spaced

/-! The sources that are read from lines. Each is the shortest in which no brace is open, and one that begins with a
comment is that comment alone: nothing is lost where the prompt passes over it. -/

namespace Lox

namespace Text

theorem strip_begins (s : String) : (strip s).toList <+: s.toList.dropWhile isBlank := by
  rw [strip, String.toList_ofList]
  exact List.rdropWhile_prefix ..

theorem mem_of_mem_strip {c : Char} {s : String} (h : c ∈ (strip s).toList) : c ∈ s.toList :=
  (List.dropWhile_suffix _).subset ((strip_begins s).subset h)

end Text

namespace Item

variable {c : Char} {cs : List Char}

theorem isAlphaNumeric_of_isBlank (h : Text.isBlank c) : isAlphaNumeric c = false := by
  have hunderscore : c ≠ '_' := by
    rintro rfl
    exact absurd h (by decide)
  simp [Text.isBlank, isAlphaNumeric, isAlpha, isDigit, Char.le_def, UInt32.le_iff_toNat_le, hunderscore] at h ⊢
  omega

/-- White space is no part of a token, be it a blank of the language or not. -/
theorem cut_blank (h : Text.isBlank c) (cs : List Char) :
    cut c cs = (if isSpace c then blank c else unexpected c, cs) := by
  cases hs : isSpace c with
  | true => exact cut_space hs cs
  | false =>
    have hother : (Text.isBlank c && !isSpace c) = true := by simp [h, hs]
    have hword := isAlphaNumeric_of_isBlank h
    rw [isAlphaNumeric, Bool.or_eq_false_iff] at hword
    rw [cut_ordinary (p := fun c => Text.isBlank c && !isSpace c) (by decide) (by decide) (by decide) hother]
    simp [hword]

theorem spellings_blanks_append {blanks : List Char} (h : ∀ c ∈ blanks, Text.isBlank c) (cs : List Char) :
    (ofChars (blanks ++ cs)).filterMap spelling? = (ofChars cs).filterMap spelling? := by
  induction blanks with
  | nil => rfl
  | cons c blanks ih =>
    obtain ⟨hc, hblanks⟩ := List.forall_mem_cons.1 h
    rw [List.cons_append, ofChars, cut_blank hc, List.filterMap_cons, ih hblanks]
    cases isSpace c <;> rfl

theorem ofChars_comment (h : '\n' ∉ cs) : ofChars ('/' :: '/' :: cs) = [comment ('/' :: '/' :: cs)] := by
  have hlegal : (comment ('/' :: '/' :: cs)).Legal := .comment fun c hc heq => h (heq ▸ hc)
  rw [ofChars, hlegal.cut_alone rfl, ofChars]

/-- Whether there is nothing before a comment or the end but white space. -/
def Mute (cs : List Char) : Prop :=
  cs.dropWhile Text.isBlank = [] ∨ ['/', '/'] <+: cs.dropWhile Text.isBlank

theorem Mute.spellings (h : Mute cs) (hline : '\n' ∉ cs) : (ofChars cs).filterMap spelling? = [] := by
  have hrest : '\n' ∉ cs.dropWhile Text.isBlank := fun hmem => hline ((List.dropWhile_suffix _).subset hmem)
  rw [← List.takeWhile_append_dropWhile (p := Text.isBlank) (l := cs),
    spellings_blanks_append fun c hc => List.mem_takeWhile_imp hc]
  rcases h with h | ⟨text, h⟩
  · rw [h, ofChars]
    rfl
  · rw [← h] at hrest ⊢
    rw [List.cons_append, List.cons_append, List.nil_append] at hrest ⊢
    rw [ofChars_comment fun hmem => hrest (by simp [hmem])]
    rfl

/-- The line that a text begins with is mute if the text begins with a comment. -/
theorem mute_of_append {line after : List Char} (hafter : ∀ c ∈ after.head?, c = '\n')
    (h : ['/', '/'] <+: (line ++ after).dropWhile Text.isBlank) : Mute line := by
  rw [List.dropWhile_append] at h
  split at h
  · next hnil => exact .inl (List.isEmpty_iff.1 hnil)
  · next hnil =>
    right
    rcases hrest : line.dropWhile Text.isBlank with _ | ⟨c, _ | ⟨d, text⟩⟩
    · exact absurd (List.isEmpty_iff.2 hrest) hnil
    · -- the second slash would have to stand on the next line
      rw [hrest, List.singleton_append, List.cons_prefix_cons] at h
      obtain ⟨-, text, rfl⟩ := h
      exact absurd (hafter '/' rfl) (by decide)
    · rw [hrest] at h
      simpa using h

end Item

namespace Scan

theorem tokens_of_mute {source : String} (h : Item.Mute source.toList) (hline : '\n' ∉ source.toList) :
    (ofText source).tokens = [] := by
  have hcontent := map_content_ofItems (Item.ofChars source.toList) 1
  rw [h.spellings hline] at hcontent
  exact List.map_eq_nil_iff.1 hcontent

/-- A comment on one line is a text in which there is nothing. -/
theorem ofText_comment {source : String} (h : source.startsWith "//") (hline : '\n' ∉ source.toList) :
    ofText source = ⟨[], [], 1⟩ := by
  obtain ⟨text, htext⟩ := String.startsWith_string_iff.1 h
  have hchars : source.toList = '/' :: '/' :: text := htext.symm
  rw [hchars] at hline
  have hnone : (Item.comment ('/' :: '/' :: text)).newlines = 0 := List.count_eq_zero.2 hline
  rw [ofText, hchars, Item.ofChars_comment fun hmem => hline (by simp [hmem])]
  simp [ofItems, hnone, Item.token?, Item.error?]

end Scan

/-- A line that is only a comment is passed over. -/
theorem Prompt.run_comment (limits : Limits) {p : Prompt} (hp : p.pending = []) {line source : String}
    (hline : takeLine [] line = .source source) (h : source.startsWith "//") (more : List Entry) :
    p.run limits (.line line :: more) = ⟨">>> ", ""⟩ :: p.run limits more := by
  obtain ⟨session, verbose, pending⟩ := p
  subst hp
  rw [run, feed, hline]
  simp [answer, h, promptText]

namespace Transcript

variable {lines : List String} {k : Nat}

/-- In a source that begins with a comment the first line is that comment, so it is all there is. -/
theorem eq_one_of_comment (hk : IsLeast (closings lines) k) (hlines : ∀ line ∈ lines, '\n' ∉ line.toList)
    (h : (Text.strip ("\n".intercalate (lines.take k))).startsWith "//") :
    k = 1 ∧ (Scan.ofText ("\n".intercalate (lines.take k))).tokens = [] := by
  obtain ⟨⟨hpos, hle, -⟩, hleast⟩ := hk
  obtain ⟨n, rfl⟩ := Nat.exists_eq_succ_of_ne_zero (Nat.pos_iff_ne_zero.1 hpos)
  obtain ⟨first, rest, rfl⟩ := List.exists_cons_of_length_pos (Nat.lt_of_lt_of_le hpos hle)
  have hsource : ∃ after, ("\n".intercalate (first :: rest.take n)).toList = first.toList ++ after ∧
      ∀ c ∈ after.head?, c = '\n' := by
    cases rest.take n with
    | nil => exact ⟨[], by simp, nofun⟩
    | cons next rest =>
      refine ⟨("\n" ++ "\n".intercalate (next :: rest)).toList, ?_, by simp⟩
      rw [String.intercalate_cons_cons, String.append_assoc, String.toList_append]
  obtain ⟨after, htext, hafter⟩ := hsource
  have hbegins : ['/', '/'] <+: (first.toList ++ after).dropWhile Text.isBlank := by
    rw [← htext]
    exact (String.startsWith_string_iff.1 h).trans (Text.strip_begins _)
  have htokens := Scan.tokens_of_mute (Item.mute_of_append hafter hbegins) (hlines first List.mem_cons_self)
  have hone : 1 ∈ closings (first :: rest) := ⟨Nat.one_pos, by simp, by simp [braceDepth, htokens]⟩
  obtain rfl : n = 0 := Nat.le_zero.1 (Nat.le_of_succ_le_succ (hleast hone))
  exact ⟨rfl, by simpa using htokens⟩

/-- While a brace is open behind each of the lines, more of them are asked for. -/
theorem ofEntries_endless (hnone : closings lines = ∅) (hexit : ∀ line ∈ lines.head?, isExit line = false) :
    ofEntries [] (lines.map .line) = ⟨[], ">>> " ++ String.join (List.replicate lines.length "... "), false⟩ := by
  have hopen : ∀ j, 0 < j → j ≤ lines.length → 0 < braceDepth ("\n".intercalate ([] ++ lines.take j)) := by
    intro j hj hle
    refine Int.not_le.1 fun hclosed => ?_
    have hmem : j ∈ closings lines := ⟨hj, hle, hclosed⟩
    simp [hnone] at hmem
  have hread := ofEntries_open [] lines (fun _ => hexit) hopen []
  rw [List.append_nil, List.nil_append] at hread
  have hprompts : promptsFor [] lines.length ++ promptText lines = promptsFor [] (lines.length + 1) := by
    rw [promptsFor_append, List.nil_append, promptsFor, List.replicate_zero, String.join_nil, String.append_empty]
  rw [hread, ofEntries]
  exact congrArg (fun prompts => (⟨[], prompts, false⟩ : Transcript)) hprompts

/-- Lines are read up to the first behind which no brace is open, and what has been read is a source; an exit is one
only as the first line. -/
theorem takes_shortest (lines : List String) (hlines : ∀ line ∈ lines, '\n' ∉ line.toList) :
    (∀ line rest more, lines = line :: rest → Text.strip line = "exit" ∨ Text.strip line = "quit" →
      ofEntries [] (lines.map .line ++ more) = (ofEntries [] (rest.map .line ++ more)).behind none ">>> ") ∧
    ((∀ line ∈ lines.head?, Text.strip line ≠ "exit" ∧ Text.strip line ≠ "quit") →
      (closings lines = ∅ → ofEntries [] (lines.map .line) =
        ⟨[], ">>> " ++ String.join (List.replicate lines.length "... "), false⟩) ∧
      ∀ k, IsLeast (closings lines) k →
        let source := Text.strip ("\n".intercalate (lines.take k))
        (∀ more, ofEntries [] (lines.map .line ++ more) =
          (ofEntries [] ((lines.drop k).map .line ++ more)).behind (some source)
            (">>> " ++ String.join (List.replicate (k - 1) "... "))) ∧
        (source.startsWith "//" → k = 1 ∧ (Scan.ofText source).allTokens = [Token.ending 1] ∧
          (Scan.ofText source).diagnostics = [] ∧ (Scan.ofText ("\n".intercalate (lines.take k))).tokens = [] ∧
          ∀ limits (p : Prompt) more, p.pending = [] → p.run limits (lines.map .line ++ more) =
            ⟨">>> ", ""⟩ :: p.run limits ((lines.drop k).map .line ++ more))) := by
  refine ⟨?_, fun hfirst => ?_⟩
  · rintro line rest more rfl hexit
    have hleave : takeLine [] line = .leave := by simp [takeLine, isExit, hexit]
    rw [List.map_cons, List.cons_append, ofEntries_leave hleave]
    rfl
  have hstays : ∀ line ∈ lines.head?, isExit line = false := fun line hline => by simpa [isExit] using hfirst line hline
  refine ⟨fun hnone => ofEntries_endless hnone hstays, fun k hk => ?_⟩
  intro source
  refine ⟨fun more => ?_, fun hcomment => ?_⟩
  · have hall : lines.map .line ++ more = (lines.take k).map .line ++ ((lines.drop k).map .line ++ more) := by
      rw [← List.append_assoc, ← List.map_append, List.take_append_drop]
    obtain ⟨n, rfl⟩ := Nat.exists_eq_succ_of_ne_zero (Nat.pos_iff_ne_zero.1 hk.1.1)
    rw [hall, ofEntries_closed hk hstays]
    rfl
  · obtain ⟨rfl, htokens⟩ := eq_one_of_comment hk hlines hcomment
    obtain ⟨line, rest, rfl⟩ := List.exists_cons_of_length_pos hk.1.2.1
    have hline : source = Text.strip line := by simp [source]
    have hclosed : braceDepth ("\n".intercalate ([] ++ [line])) ≤ 0 := hk.1.2.2
    have hsource := takeLine_closed (fun _ => hstays line rfl) hclosed
    rw [List.nil_append, String.intercalate_singleton, ← hline] at hsource
    have hplain : '\n' ∉ source.toList := by
      rw [hline]
      exact fun hmem => hlines line List.mem_cons_self (Text.mem_of_mem_strip hmem)
    refine ⟨rfl, ?_, ?_, htokens, fun limits p more hp => Prompt.run_comment limits hp hsource hcomment _⟩
    · rw [Scan.ofText_comment hcomment hplain]
      rfl
    · rw [Scan.ofText_comment hcomment hplain]
      rfl

/-- A block with an exit in it, typed behind a comment in which a brace and a quote stand. -/
def exitTyped : List String := ["  // \x7b \"", "\x7b // \x7d", "exit", "\x7d"]

theorem takes_shortest_exit :
    (∀ line ∈ exitTyped, '\n' ∉ line.toList) ∧ IsLeast (closings exitTyped) 1 ∧
      IsLeast (closings (exitTyped.drop 1)) 3 ∧
      ofEntries [] (exitTyped.map .line) =
        ⟨[some "// \x7b \"", some "\x7b // \x7d\nexit\n\x7d"], ">>> >>> ... ... >>> ", false⟩ ∧
      ∀ limits (p : Prompt), p.pending = [] →
        p.run limits (exitTyped.map .line) = ⟨">>> ", ""⟩ :: p.run limits ((exitTyped.drop 1).map .line) := by
  have hlines : ∀ line ∈ exitTyped, '\n' ∉ line.toList := by decide
  have hcomment : IsLeast (closings exitTyped) 1 := ⟨by decide +kernel, fun j hj => hj.1⟩
  have hblock : IsLeast (closings (exitTyped.drop 1)) 3 := by
    refine ⟨by decide +kernel, fun j hj => Nat.le_of_not_lt fun hlt => ?_⟩
    have hopen : ∀ j < 3, j ∉ closings (exitTyped.drop 1) := by decide +kernel
    exact hopen j hlt hj
  obtain ⟨-, hread⟩ := takes_shortest exitTyped hlines
  obtain ⟨hfirst, hpassed⟩ := (hread (by decide)).2 1 hcomment
  obtain ⟨-, hrest⟩ := takes_shortest (exitTyped.drop 1) fun line hline => hlines line (List.mem_of_mem_drop hline)
  have hsecond := ((hrest (by decide)).2 3 hblock).1
  refine ⟨hlines, hcomment, hblock, ?_, fun limits p hp => ?_⟩
  · have hnext := hsecond []
    have hthis := hfirst []
    rw [List.append_nil] at hthis hnext
    rw [hthis, List.append_nil, hnext]
    rfl
  · obtain ⟨-, -, -, -, hrun⟩ := hpassed (by decide +kernel)
    simpa using hrun limits p [] hp

end Transcript

end Lox
