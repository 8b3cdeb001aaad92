import Lox.Proofs.Grammar.Sentences
import Lox.Proofs.Grammar.Twins

/-! Syntax errors are reported at the earliest token that they can be seen at. The tokens before it could still go on
to be a program, and with it they no longer could. -/

namespace Lox

/-- What is said of sentences. All else is said where a sentence breaks off. -/
def sentenceMessages : List String :=
  ["Invalid assignment target.", "Can't have 255 or more parameters.", "Can't have 255 or more arguments."]

theorem ParseProblem.isMild_iff (p : ParseProblem) : p.isMild ↔ p.message ∈ sentenceMessages := by
  cases p with
  | functionName sort | functionParen sort | functionBody sort => cases sort <;> decide
  | _ => decide

namespace Derivation

variable {q : Phrase}

theorem mem_overlong {n : Nat} {entries : String} {t : Token} {x : Diagnostic} (h : x ∈ overlong n entries t) :
    x = .atToken t s!"Can't have 255 or more {entries}." := by
  unfold overlong at h
  split at h
  · exact List.mem_singleton.1 h
  · cases h

theorem mem_misassigned {target : Expr} {t : Token} {x : Diagnostic} (h : x ∈ misassigned target t) :
    x = .atToken t "Invalid assignment target." := by
  cases target <;> simp_all [misassigned]

/-- All that is ever said of a sentence is what can be passed over. -/
theorem exists_mild_of_mem_diagnostics (d : Derivation q) : ∀ x ∈ d.diagnostics, ∃ t, ∃ problem : ParseProblem,
    problem.isMild ∧ x = .atToken t problem.message := by
  induction d with
  | name | constant | this | identifier | absent | nothing | startNothing => exact fun x hx => nomatch hx
  | assignment l t r ihl ihr =>
    intro x hx
    rcases List.mem_append.1 hx with hx | hx
    · exact (List.mem_append.1 hx).elim (ihl x) (ihr x)
    · exact ⟨t, .assignmentTarget, rfl, mem_misassigned hx⟩
  | application f l ds r ihf ihd =>
    intro x hx
    rcases List.mem_append.1 hx with hx | hx
    · exact (List.mem_append.1 hx).elim (ihf x) (ihd x)
    · exact ⟨r, .tooManyArguments, rfl, mem_overlong hx⟩
  | function n l ps r b ihp ihb =>
    intro x hx
    rcases List.mem_append.1 hx with hx | hx
    · rcases List.mem_append.1 hx with hx | hx
      · exact ihp x hx
      · exact ⟨r, .tooManyParameters, rfl, mem_overlong hx⟩
    · exact ihb x hx
  | grouping _ _ _ ih | operand _ ih | bare _ ih | tightest _ ih | single _ ih | plain _ ih | present _ ih
  | last _ ih | startVariable _ ih | startExpression _ ih | expression _ ih | nested _ ih
  | statement _ ih | «variable» _ ih | property _ _ _ ih | sign _ _ ih | initializer _ _ ih
  | alternative _ _ ih | funDeclaration _ _ ih | exprStatement _ _ ih | varDeclaration _ _ _ _ ih
  | block _ _ _ ih | print _ _ _ ih | returning _ _ _ ih | classDeclaration _ _ _ _ _ ih => exact ih
  | operation _ _ _ ih ih' | more _ _ _ ih ih' | next _ _ ih ih' | whileLoop _ _ _ _ _ ih ih' =>
    exact fun x hx => (List.mem_append.1 hx).elim (ih x) (ih' x)
  | branch _ _ _ _ _ _ ihc iht ihf =>
    exact fun x hx => (List.mem_append.1 hx).elim (fun hx => (List.mem_append.1 hx).elim (ihc x) (iht x)) (ihf x)
  | forLoop _ _ _ _ _ _ _ _ ihs ihc ihi ihb =>
    intro x hx
    simp only [diagnostics, List.mem_append] at hx
    rcases hx with ((hx | hx) | hx) | hx
    · exact ihs x hx
    · exact ihc x hx
    · exact ihi x hx
    · exact ihb x hx

end Derivation

namespace Program

variable {depth : Nat} {ts : List Token}

theorem errors_eq (depth : Nat) (ts : List Token) :
    (ofTokens depth ts).errors = (Parser.ending (Parser.program depth ⟨ts, #[]⟩)).errors.toList := by
  unfold ofTokens
  cases Parser.program depth ⟨ts, #[]⟩ <;> rfl

theorem find?_errors (depth : Nat) (ts : List Token) :
    (ofTokens depth ts).errors.find? (·.problem.message ∉ sentenceMessages) =
      firstSevere? (Parser.ending (Parser.program depth ⟨ts, #[]⟩)).errors := by
  rw [errors_eq, firstSevere?, Array.find?_toList]
  congr 1
  funext e
  rw [Bool.eq_iff_iff, decide_eq_true_iff, ← e.problem.isMild_iff]
  simp

/-- Nothing but what can be passed over is reported of a sentence. -/
theorem mild_of_derivation (d : Derivation (.many .declaration)) (hn : d.nesting ≤ depth) (he : d.NearestElse) :
    Mild (Parser.ending (Parser.program depth ⟨d.tokens, #[]⟩)).errors := by
  intro e hmem
  have hsaid := (ofTokens_derivation d hn he).2 0
  rw [errors_eq] at hsaid
  have hdiagnostic : e.diagnostic 0 ∈ d.diagnostics := hsaid ▸ List.mem_map_of_mem (Array.mem_toList_iff.2 hmem)
  obtain ⟨t, problem, hmild, hx⟩ := d.exists_mild_of_mem_diagnostics _ hdiagnostic
  have hmessage : e.problem.message = problem.message := by
    injection hx
  rw [ParseProblem.isMild_iff, hmessage]
  exact problem.isMild_iff.1 hmild

/-- Where a program breaks off among tokens that are of the same kinds for a sentence, so would the sentence. -/
theorem not_breaks_of_derivation (hnone : ∀ e ∈ (ofTokens depth ts).errors, e.problem ≠ .nesting) {e : ParseError}
    (he : (ofTokens depth ts).errors.find? (·.problem.message ∉ sentenceMessages) = some e) (x : Tails)
    (hbehind : x.Behind e.place) {us vs : List Token} (hts : ts = us ++ x.left) (hsame : SameKinds us vs)
    (d : Derivation (.many .declaration)) (hd : d.tokens = vs ++ x.right) : False := by
  obtain ⟨d', hd', hnearest, -⟩ := d.exists_regroups
  -- under a higher limit, which the sentence may need, the program breaks off at the same place
  have hdeeper := ofTokens_deepens (Nat.le_max_left depth d'.nesting) hnone
  have hnesting : e.problem ≠ .nesting := hnone e (List.mem_of_find?_eq_some he)
  rw [← hdeeper, find?_errors, hts] at he
  refine ((Parser.twinned_program _).runs us vs hsame).breaks #[] #[] e mild_empty he hnesting hbehind ?_
  rw [← hd, ← hd']
  exact mild_of_derivation d' (Nat.le_max_right depth d'.nesting) hnearest

end Program

/-- Where the first problem is that is not said of sentences, if the limit of the nesting is nowhere met: what stands
before that place can go on to be a program, as far as the kinds of its tokens tell, and with the token there it
cannot. At the end of the tokens they are no program themselves. Without such a problem they are one. -/
theorem Program.breaks_earliest (depth : Nat) (ts : List Token)
    (h : ∀ e ∈ (ofTokens depth (TokenStream.ofList ts).tokens).errors, e.problem ≠ .nesting) :
    let tokens := (TokenStream.ofList ts).tokens
    let kinds := List.map Token.kind
    let Sentence := Derivation (.many .declaration)
    match (ofTokens depth tokens).errors.find? (·.problem.message ∉ sentenceMessages) with
    | none => ∃ d : Sentence, d.tokens = tokens
    | some e => ∃ before, tokens = before ++ e.place ∧ (∃ d : Sentence, kinds before <+: kinds d.tokens) ∧
        (∀ t after, e.place = t :: after → ∀ d : Sentence, ¬ kinds (before ++ [t]) <+: kinds d.tokens) ∧
        (e.place = [] → ∀ d : Sentence, kinds d.tokens ≠ kinds tokens) := by
  intro tokens kinds Sentence
  cases he : (ofTokens depth tokens).errors.find? (·.problem.message ∉ sentenceMessages) with
  | none =>
    have hmild : Mild (ofTokens depth tokens).errors.toArray := by
      rw [find?_errors, firstSevere?_eq_none] at he
      rwa [errors_eq, Array.toArray_toList]
    obtain ⟨d, hd, -⟩ := exists_derivation depth tokens hmild
    exact ⟨d, hd⟩
  | some e =>
    have hnesting : e.problem ≠ .nesting := h e (List.mem_of_find?_eq_some he)
    obtain ⟨before, htokens, d, hd⟩ : (Phrase.many .declaration).Begins tokens e.place := by
      obtain ⟨es, hes, hplace⟩ := Parser.breaks_program depth tokens #[]
      rw [find?_errors, hes, Array.empty_append] at he
      exact hplace e he hnesting
    refine ⟨before, htokens, ⟨d, hd.map Token.kind⟩, fun t after hplace d ⟨rest, hrest⟩ => ?_, fun hplace d hd => ?_⟩
    · obtain ⟨vs, ws, hws, hvs, -⟩ := List.map_eq_append_iff.1 hrest.symm
      refine not_breaks_of_derivation h he ⟨after, ws⟩ (.inl ?_) ?_ hvs.symm d hws
      · rw [hplace]
        exact Nat.lt_succ_self _
      · refine htokens.trans ?_
        rw [hplace, List.append_assoc]
        rfl
    · refine not_breaks_of_derivation h he ⟨[], []⟩ (.inr ⟨rfl, rfl⟩) ?_ hd.symm d ?_
      · exact (List.append_nil _).symm
      · exact (List.append_nil _).symm

/-- `a + b = c; a(b + );`, where something else is said before the sum breaks off -/
def cutSum : List Token :=
  [(.identifier, "a"), (.plus, "+"), (.identifier, "b"), (.equal, "="), (.identifier, "c"), (.semicolon, ";"),
    (.identifier, "a"), (.leftParen, "("), (.identifier, "b"), (.plus, "+"), (.rightParen, ")"), (.semicolon, ";"),
    (.eof, "")].map fun (kind, lexeme) => ⟨kind, lexeme, .nil, 1⟩

theorem Program.breaks_earliest_cutSum :
    let errors := (ofTokens 20 (TokenStream.ofList cutSum).tokens).errors
    errors.map (·.problem.message) = ["Invalid assignment target.", "Expect expression."] ∧
      (∃ d : Derivation (.many .declaration), (cutSum.take 10).map Token.kind <+: d.tokens.map Token.kind) ∧
        ∀ d : Derivation (.many .declaration), ¬ (cutSum.take 11).map Token.kind <+: d.tokens.map Token.kind := by
  intro errors
  have hproblems : errors.map ParseError.problem = [.assignmentTarget, .expression] := rfl
  have hnesting : ∀ e ∈ errors, e.problem ≠ .nesting := by
    intro e he hnesting
    have hmem := hproblems ▸ List.mem_map_of_mem (f := ParseError.problem) he
    simp [hnesting] at hmem
  have hfirst : errors.find? (·.problem.message ∉ sentenceMessages) =
      some ⟨(cutSum.drop 10).dropLast, .expression⟩ := rfl
  have h := Program.breaks_earliest 20 cutSum hnesting
  dsimp only at h
  rw [show (ofTokens 20 (TokenStream.ofList cutSum).tokens).errors.find? _ = _ from hfirst] at h
  obtain ⟨before, htokens, hviable, hnot, -⟩ := h
  obtain rfl : cutSum.take 10 = before := List.append_cancel_right htokens
  exact ⟨rfl, hviable, hnot _ _ rfl⟩

end Lox
