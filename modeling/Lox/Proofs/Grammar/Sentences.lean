import Lox.Proofs.Grammar.Soundness
import Lox.Proofs.Grammar.DanglingElse

/-! The parser against the grammar: what it takes without a word is a strict sentence, and of a sentence it
gives back the tree and says what is to be said. -/

namespace Lox
namespace Derivation

variable {q : Phrase}

/-! What is said of an assignment is said of what its target is, which is what its tree shows. -/

theorem misassigned_primary (d : Derivation .primary) (t : Token) :
    misassigned d.value t = [] ↔ d.IsTarget := by
  cases d <;> simp [misassigned, value, IsTarget]

theorem misassigned_call (d : Derivation .call) (t : Token) :
    misassigned d.value t = [] ↔ d.IsTarget := by
  cases d with
  | operand d => exact misassigned_primary d t
  | application | property => simp [misassigned, value, IsTarget]

theorem misassigned_unary (d : Derivation .unary) (t : Token) :
    misassigned d.value t = [] ↔ d.IsTarget := by
  cases d with
  | bare d => exact misassigned_call d t
  | sign => simp [misassigned, value, IsTarget]

theorem misassigned_level (levels : List (List TokenKind)) (d : Derivation (.level levels)) (t : Token) :
    misassigned d.value t = [] ↔ d.IsTarget := by
  induction levels with
  | nil =>
    cases d with
    | tightest d => exact misassigned_unary d t
  | cons ops rest ih =>
    cases d with
    | single d => exact ih d
    | operation => simp [misassigned, value, IsTarget]

theorem overlong_eq_nil (n : Nat) (entries : String) (right : Token) :
    overlong n entries right = [] ↔ n < 255 := by
  unfold overlong
  by_cases h : 255 ≤ n
  · simp [h]
  · simp [h]; omega

/-- Nothing is to be said about the strict sentences, and about no others. -/
theorem diagnostics_eq_nil_iff (d : Derivation q) : d.diagnostics = [] ↔ d.Strict := by
  induction d with
  | name | constant | this | identifier | absent | nothing | startNothing => simp [diagnostics, Strict]
  | assignment l t r ihl ihr =>
    simp only [diagnostics, Strict, List.append_eq_nil_iff, ihl, ihr, misassigned_level]
    exact and_comm
  | application f l ds r ihf ihd =>
    simp only [diagnostics, Strict, List.append_eq_nil_iff, ihf, ihd, overlong_eq_nil, and_assoc]
  | function n l ps r b ihp ihb =>
    simp only [diagnostics, Strict, List.append_eq_nil_iff, ihp, ihb, overlong_eq_nil, and_assoc]
  | grouping _ _ _ ih | operand _ ih | bare _ ih | tightest _ ih | single _ ih | plain _ ih | present _ ih
  | last _ ih | startVariable _ ih | startExpression _ ih | expression _ ih | nested _ ih
  | statement _ ih | «variable» _ ih | property _ _ _ ih | sign _ _ ih | initializer _ _ ih
  | alternative _ _ ih | funDeclaration _ _ ih | exprStatement _ _ ih | varDeclaration _ _ _ _ ih
  | block _ _ _ ih | print _ _ _ ih | returning _ _ _ ih | classDeclaration _ _ _ _ _ ih => exact ih
  | operation _ _ _ ih ih' | more _ _ _ ih ih' | next _ _ ih ih' | whileLoop _ _ _ _ _ ih ih' =>
    simp only [diagnostics, Strict, List.append_eq_nil_iff, ih, ih']
  | branch _ _ _ _ _ _ ihc iht ihf =>
    simp only [diagnostics, Strict, List.append_eq_nil_iff, ihc, iht, ihf, and_assoc]
  | forLoop _ _ _ _ _ _ _ _ ihs ihc ihi ihb =>
    simp only [diagnostics, Strict, List.append_eq_nil_iff, ihs, ihc, ihi, ihb, and_assoc]

/-- Only one tree belongs to a sentence whose `else`s are where they belong, and only one list of
diagnostics. -/
theorem value_unique {d d' : Derivation (.many .declaration)} (ht : d'.tokens = d.tokens)
    (he : d.NearestElse) (he' : d'.NearestElse) : d'.value = d.value ∧ d'.diagnostics = d.diagnostics := by
  have h := Program.ofTokens_derivation d (Nat.le_max_left d.nesting d'.nesting) he
  have h' := Program.ofTokens_derivation d' (Nat.le_max_right d.nesting d'.nesting) he'
  rw [ht] at h'
  exact ⟨h'.1.symm.trans h.1, (h'.2 0).symm.trans (h.2 0)⟩

end Derivation

/-- A program without an error is a strict sentence, and its statements are the tree of a derivation of
exactly the tokens before the first ending one. -/
theorem Program.ofTokens_sound (depth : Nat) (ts : List Token)
    (h : (Program.ofTokens depth (TokenStream.ofList ts).tokens).errors = []) :
    ∃ d : Derivation (.many .declaration), d.tokens = ts.takeWhile (·.kind ≠ .eof) ∧ d.Strict ∧
      d.NearestElse ∧ (Program.ofTokens depth (TokenStream.ofList ts).tokens).statements = d.value := by
  have hmild : Mild (Program.ofTokens depth (TokenStream.ofList ts).tokens).errors.toArray := by
    rw [h]
    exact mild_empty
  obtain ⟨d, ht, hn, he⟩ := Program.exists_derivation depth _ hmild
  have hd := Program.ofTokens_derivation d hn he
  rw [ht] at hd
  have hstrict : d.diagnostics = [] := by
    rw [← hd.2 0, h]
    rfl
  exact ⟨d, ht, d.diagnostics_eq_nil_iff.1 hstrict, he, hd.1⟩

/-- `if (a) if (b) for (;;) o.p = f(x); else return;` -/
def openIf : List Token :=
  [(.kwIf, "if"), (.leftParen, "("), (.identifier, "a"), (.rightParen, ")"), (.kwIf, "if"),
    (.leftParen, "("), (.identifier, "b"), (.rightParen, ")"), (.kwFor, "for"), (.leftParen, "("),
    (.semicolon, ";"), (.semicolon, ";"), (.rightParen, ")"), (.identifier, "o"), (.dot, "."),
    (.identifier, "p"), (.equal, "="), (.identifier, "f"), (.leftParen, "("), (.identifier, "x"),
    (.rightParen, ")"), (.semicolon, ";"), (.kwElse, "else"), (.kwReturn, "return"),
    (.semicolon, ";"), (.eof, "")].map fun (kind, lexeme) => ⟨kind, lexeme, .nil, 1⟩

theorem Program.ofTokens_sound_openIf : ∃ d : Derivation (.many .declaration),
    d.tokens = openIf.dropLast ∧ d.Strict ∧ d.NearestElse ∧
      (Program.ofTokens 20 (TokenStream.ofList openIf).tokens).statements = d.value :=
  Program.ofTokens_sound 20 openIf rfl

/-- Of a sentence, the tree with each `else` at the nearest `if` is given back and its diagnostics are said,
however the sentence was derived. There are none if it is a strict one. -/
theorem Program.ofTokens_complete (sentence : Derivation (.many .declaration)) (ts : List Token)
    (hts : (TokenStream.ofList ts).tokens = sentence.tokens) :
    ∃ d : Derivation (.many .declaration), d.tokens = sentence.tokens ∧ d.NearestElse ∧
      (∀ d' : Derivation (.many .declaration), d'.tokens = sentence.tokens → d'.NearestElse →
        d'.value = d.value ∧ d'.diagnostics = d.diagnostics) ∧
      ∀ depth, d.nesting ≤ depth →
        let program := Program.ofTokens depth (TokenStream.ofList ts).tokens
        program.statements = d.value ∧
          program.errors.map (·.diagnostic (TokenStream.ofList ts).lastLine) = d.diagnostics ∧
          (sentence.Strict → program.errors = []) := by
  obtain ⟨d, ht, he, hstrict⟩ := sentence.exists_regroups
  refine ⟨d, ht, he, fun d' ht' he' => Derivation.value_unique (ht'.trans ht.symm) he he',
    fun depth hn => ?_⟩
  obtain ⟨hvalue, hdiagnostics⟩ := Program.ofTokens_derivation d hn he
  rw [hts, ← ht]
  refine ⟨hvalue, hdiagnostics _, fun hs => ?_⟩
  have hnone : d.diagnostics = [] := d.diagnostics_eq_nil_iff.2 (hstrict hs)
  rw [← hdiagnostics 0] at hnone
  exact List.map_eq_nil_iff.1 hnone

/-- `a + b = c = d;` -/
def sumAssigned : List Token :=
  [(.identifier, "a"), (.plus, "+"), (.identifier, "b"), (.equal, "="), (.identifier, "c"),
    (.equal, "="), (.identifier, "d"), (.semicolon, ";"), (.eof, "")].map
      fun (kind, lexeme) => ⟨kind, lexeme, .nil, 1⟩

theorem Program.ofTokens_complete_sumAssigned : ∃ d : Derivation (.many .declaration),
    d.tokens = sumAssigned.dropLast ∧ d.NearestElse ∧ ∀ depth, d.nesting ≤ depth →
      let program := Program.ofTokens depth (TokenStream.ofList sumAssigned).tokens
      program.statements = d.value ∧ program.errors.map (·.diagnostic 1) = d.diagnostics := by
  obtain ⟨sentence, hs, -, -⟩ := Program.exists_derivation 20 sumAssigned.dropLast
    (by unfold Mild; decide)
  obtain ⟨d, ht, he, -, h⟩ := Program.ofTokens_complete sentence sumAssigned hs.symm
  exact ⟨d, ht.trans hs, he, fun depth hn => ⟨(h depth hn).1, (h depth hn).2.1⟩⟩

end Lox
