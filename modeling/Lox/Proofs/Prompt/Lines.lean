import Lox.Prompt
import Lox.Proofs.Grammar.Braces
import Lox.Proofs.Grammar.Soundness
import Mathlib.Order.Nat

/-! Lines that make up a source. They are taken up to the first at which no brace is open, so an accepted program is
complete with its last line at the latest. -/

namespace Lox

/-- A source taken before the others, with the prompts for its lines. -/
def Transcript.behind (source : Option String) (prompts : String) (t : Transcript) : Transcript :=
  ⟨source :: t.sources, prompts ++ t.prompts, t.interrupted⟩

namespace Transcript

variable {pending lines : List String} {line : String} {more : List Entry}

theorem ofEntries_incomplete (hline : takeLine pending line = .incomplete lines) :
    ofEntries pending (.line line :: more) =
      { ofEntries lines more with prompts := promptText pending ++ (ofEntries lines more).prompts } := by
  rw [ofEntries, hline]
  rfl

theorem ofEntries_source {source : String} (hline : takeLine pending line = .source source) :
    ofEntries pending (.line line :: more) = (ofEntries [] more).behind (some source) (promptText pending) := by
  rw [ofEntries, hline]
  rfl

theorem ofEntries_leave (hline : takeLine pending line = .leave) :
    ofEntries pending (.line line :: more) = (ofEntries [] more).behind none (promptText pending) := by
  rw [ofEntries, hline]
  rfl

/-- The prompts for a number of lines behind those that are pending. -/
def promptsFor (pending : List String) : Nat → String
  | 0 => ""
  | k + 1 => promptText pending ++ String.join (List.replicate k "... ")

theorem promptsFor_succ (pending : List String) (line : String) (k : Nat) :
    promptsFor pending (k + 1) = promptText pending ++ promptsFor (pending ++ [line]) k := by
  cases k with
  | zero => rfl
  | succ k => simp [promptsFor, promptText, List.replicate_succ, String.join_cons]

theorem promptsFor_append (pending lines : List String) (k : Nat) :
    promptsFor pending (lines.length + k) = promptsFor pending lines.length ++ promptsFor (pending ++ lines) k := by
  induction lines generalizing pending with
  | nil => simp [promptsFor]
  | cons line rest ih =>
    have hrest := ih (pending ++ [line])
    rw [← List.append_cons] at hrest
    rw [List.length_cons, Nat.add_right_comm, promptsFor_succ pending line, promptsFor_succ pending line, hrest,
      String.append_assoc]

/-! One line -/

section Line

variable (hexit : pending = [] → isExit line = false)

include hexit

theorem takeLine_open (hopen : 0 < braceDepth ("\n".intercalate (pending ++ [line]))) :
    takeLine pending line = .incomplete (pending ++ [line]) := by
  have hstays : (pending.isEmpty && isExit line) = false := by simpa using hexit
  simp [takeLine, hstays, Int.not_le.2 hopen]

theorem takeLine_closed (hclosed : braceDepth ("\n".intercalate (pending ++ [line])) ≤ 0) :
    takeLine pending line = .source (Text.strip ("\n".intercalate (pending ++ [line]))) := by
  have hstays : (pending.isEmpty && isExit line) = false := by simpa using hexit
  simp [takeLine, hstays, hclosed]

end Line

/-! Lines one behind the other -/

/-- As long as a brace is open the lines are kept, and more are asked for. -/
theorem ofEntries_open (pending lines : List String) (hexit : pending = [] → ∀ line ∈ lines.head?, isExit line = false)
    (hopen : ∀ j, 0 < j → j ≤ lines.length → 0 < braceDepth ("\n".intercalate (pending ++ lines.take j)))
    (more : List Entry) :
    ofEntries pending (lines.map .line ++ more) =
      { ofEntries (pending ++ lines) more with
        prompts := promptsFor pending lines.length ++ (ofEntries (pending ++ lines) more).prompts } := by
  induction lines generalizing pending with
  | nil => simp [promptsFor]
  | cons line rest ih =>
    have hline := takeLine_open (fun hnil => hexit hnil line rfl) (hopen 1 Nat.one_pos (Nat.le_add_left 1 _))
    rw [List.map_cons, List.cons_append, ofEntries_incomplete hline, ih (pending ++ [line]) (by simp)]
    · rw [← List.append_cons, List.length_cons, promptsFor_succ pending line, String.append_assoc]
    · intro j hj hle
      simpa using hopen (j + 1) (Nat.succ_pos j) (Nat.succ_le_succ hle)

/-- Lines are one source if no brace is open at their end, and some are before. -/
theorem ofEntries_lines (pending lines : List String) (hlines : lines ≠ [])
    (hexit : pending = [] → ∀ line ∈ lines.head?, isExit line = false)
    (hopen : ∀ j, 0 < j → j < lines.length → 0 < braceDepth ("\n".intercalate (pending ++ lines.take j)))
    (hclosed : braceDepth ("\n".intercalate (pending ++ lines)) ≤ 0) (more : List Entry) :
    ofEntries pending (lines.map .line ++ more) =
      (ofEntries [] more).behind (some (Text.strip ("\n".intercalate (pending ++ lines))))
        (promptsFor pending lines.length) := by
  obtain ⟨kept, last, rfl⟩ : ∃ kept last, lines = kept ++ [last] :=
    ⟨_, _, (List.dropLast_append_getLast hlines).symm⟩
  have hfirst : pending = [] → ∀ line ∈ kept.head?, isExit line = false := by
    intro hnil line hline
    exact hexit hnil line (by simp [Option.mem_def.1 hline])
  have hkept : ∀ j, 0 < j → j ≤ kept.length → 0 < braceDepth ("\n".intercalate (pending ++ kept.take j)) := by
    intro j hj hle
    have := hopen j hj (by simpa using Nat.lt_succ_of_le hle)
    rwa [List.take_append_of_le_length hle] at this
  have hstays : pending ++ kept = [] → isExit last = false := by
    intro hnil
    obtain ⟨rfl, rfl⟩ := List.append_eq_nil_iff.1 hnil
    exact hexit rfl last rfl
  rw [← List.append_assoc] at hclosed ⊢
  rw [List.map_append, List.append_assoc, ofEntries_open pending kept hfirst hkept, List.map_singleton,
    List.singleton_append, ofEntries_source (takeLine_closed hstays hclosed), List.length_append, promptsFor_append]
  simp [behind, promptsFor, String.append_assoc]

/-- The numbers of lines behind which no brace is open. -/
def closings (lines : List String) : Set Nat :=
  {k | 0 < k ∧ k ≤ lines.length ∧ braceDepth ("\n".intercalate (lines.take k)) ≤ 0}

instance (lines : List String) : DecidablePred (· ∈ closings lines) := fun k =>
  inferInstanceAs (Decidable (0 < k ∧ k ≤ lines.length ∧ braceDepth ("\n".intercalate (lines.take k)) ≤ 0))

/-- Lines are taken as soon as no brace is open. -/
theorem ofEntries_closed {k : Nat} (hk : IsLeast (closings lines) k)
    (hexit : ∀ line ∈ lines.head?, isExit line = false) (more : List Entry) :
    ofEntries [] ((lines.take k).map .line ++ more) =
      (ofEntries [] more).behind (some (Text.strip ("\n".intercalate (lines.take k)))) (promptsFor [] k) := by
  obtain ⟨⟨hpos, hle, hclosed⟩, hleast⟩ := hk
  have hlength : (lines.take k).length = k := List.length_take_of_le hle
  have htaken := ofEntries_lines [] (lines.take k) ?_ (fun _ => ?_) (fun j hj hlt => ?_) hclosed more
  · rwa [hlength] at htaken
  · exact List.ne_nil_of_length_pos (by rwa [hlength])
  · rwa [List.head?_take, if_neg (Nat.pos_iff_ne_zero.1 hpos)]
  · rw [hlength] at hlt
    rw [List.nil_append, List.take_take, Nat.min_eq_left (Nat.le_of_lt hlt)]
    exact Int.not_le.1 fun h => Nat.not_le.2 hlt (hleast ⟨hj, Nat.le_trans (Nat.le_of_lt hlt) hle, h⟩)

/-- The first lines at which no brace is open, or the exit, are taken as soon as they are there. -/
theorem exists_taken (hlines : lines ≠ []) (hclosed : braceDepth ("\n".intercalate lines) ≤ 0) :
    ∃ k, 0 < k ∧ k ≤ lines.length ∧ ∀ more, ofEntries [] ((lines.take k).map .line ++ more) =
      (ofEntries [] more).behind
        (if isExit (lines.headD "") then none else some (Text.strip ("\n".intercalate (lines.take k))))
        (promptsFor [] k) := by
  obtain ⟨line, rest, rfl⟩ := List.exists_cons_of_ne_nil hlines
  by_cases hexit : isExit line
  · refine ⟨1, Nat.one_pos, by simp, fun more => ?_⟩
    have hleave : takeLine [] line = .leave := by simp [takeLine, hexit]
    simp [ofEntries_leave hleave, hexit, promptsFor]
  · have hall : (line :: rest).length ∈ closings (line :: rest) := ⟨by simp, Nat.le_refl _, by rwa [List.take_length]⟩
    have hleast := Set.Nonempty.isLeast_natFind ⟨_, hall⟩
    refine ⟨_, hleast.1.1, hleast.1.2.1, fun more => ?_⟩
    simpa [hexit] using ofEntries_closed hleast (by simpa using hexit) more

end Transcript

theorem Program.balanced {depth : Nat} {ts : List Token} (h : (Program.ofTokens depth ts).errors = []) :
    Balanced ts := by
  obtain ⟨d, rfl, -⟩ := Program.exists_sentence h
  exact d.balanced_tokens trivial

theorem braceDepth_of_balanced {source : String} (h : Balanced (Scan.ofText source).tokens) :
    braceDepth source = 0 := by
  simp [braceDepth, h.countP_eq]

/-- In a program in which nothing is wrong the braces balance, and no beginning of it closes more of them than it
opens. So its lines are taken with the last of them at the latest, whatever entries come behind. -/
theorem Reading.braces_balance (depth : Nat) (source : String) (h : (ofText depth source).diagnostics = []) :
    braceDepth source = 0 ∧
      (∀ ts, ts <+: (Scan.ofText source).allTokens →
        ts.countP (·.kind = .rightBrace) ≤ ts.countP (·.kind = .leftBrace)) ∧
      ∀ lines, lines ≠ [] → "\n".intercalate lines = source → ∃ k, 0 < k ∧ k ≤ lines.length ∧ ∀ more,
        Transcript.ofEntries [] ((lines.take k).map .line ++ more) =
          (Transcript.ofEntries [] more).behind
            (if isExit (lines.headD "") then none else some (Text.strip ("\n".intercalate (lines.take k))))
            (Transcript.promptsFor [] k) := by
  have hnone : (Program.ofTokens depth (Scan.ofText source).tokens).errors = [] :=
    List.map_eq_nil_iff.1 (List.append_eq_nil_iff.1 h).2
  have hbalanced : Balanced (Scan.ofText source).tokens := Program.balanced hnone
  have hdepth : braceDepth source = 0 := braceDepth_of_balanced hbalanced
  refine ⟨hdepth, fun ts hts => ?_, fun lines hlines hsource => ?_⟩
  · have hending : Balanced [Token.ending (Scan.ofText source).lastLine] := .plain nofun nofun .nil
    exact (hbalanced.append hending).countP_le_beginning hts
  · exact Transcript.exists_taken hlines (hsource ▸ Int.le_of_eq hdepth)

/-- A class typed in four lines, with braces in a string and in a comment. -/
def greeterTyped : List String :=
  ["class Greeter \x7b greet() \x7b", "print \"\x7d\"; // \x7b", "\x7d", "\x7d // done"]

theorem Reading.braces_balance_greeter :
    let source := "\n".intercalate greeterTyped
    (ofText 20 source).diagnostics = [] ∧ braceDepth source = 0 ∧ ∃ k, 0 < k ∧ k ≤ 4 ∧ ∀ more,
      Transcript.ofEntries [] ((greeterTyped.take k).map .line ++ more) =
        (Transcript.ofEntries [] more).behind (some (Text.strip ("\n".intercalate (greeterTyped.take k))))
          (Transcript.promptsFor [] k) := by
  intro source
  have hempty : (ofText 20 source).diagnostics.isEmpty = true := by decide +kernel
  have hnone := List.isEmpty_iff.1 hempty
  obtain ⟨hdepth, -, hlines⟩ := braces_balance 20 source hnone
  exact ⟨hnone, hdepth, hlines greeterTyped (List.cons_ne_nil _ _) rfl⟩

end Lox
