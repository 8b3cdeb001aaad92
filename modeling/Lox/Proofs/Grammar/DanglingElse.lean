import Lox.Proofs.Grammar.Derivation

/-! The dangling `else`. A sentence may have derivations that differ in the `if`s its `else`s belong to. Among
them there is one where each belongs to the nearest, found from any other by moving the `else`s inward. -/

namespace Lox

/-- Whether statements may stand inside a phrase. -/
def Phrase.hasStatements : Phrase → Bool
  | optional p | list p | many p => p.hasStatements
  | block | alternative | statement | function | declaration => true
  | _ => false

namespace Derivation

variable {q : Phrase}

/-- Where there is no statement there is no `else`. -/
theorem nearestElse_of_hasStatements (d : Derivation q) (h : q.hasStatements = false) :
    d.NearestElse := by
  induction d with
  | name | constant | this | identifier | absent | nothing | startNothing => trivial
  | block | alternative | expression | print | returning | nested | branch | whileLoop | forLoop
  | function | statement | «variable» | funDeclaration | classDeclaration => cases h
  | grouping _ _ _ ih | operand _ ih | property _ _ _ ih | bare _ ih | sign _ _ ih | tightest _ ih
  | single _ ih | plain _ ih | initializer _ _ ih | exprStatement _ _ ih | startVariable _ ih
  | startExpression _ ih | varDeclaration _ _ _ _ ih => exact ih rfl
  | present _ ih | last _ ih => exact ih h
  | more _ _ _ ih ih' => exact ⟨ih h, ih' h⟩
  | next _ _ ih ih' => exact ⟨ih h, ih' h⟩
  | application _ _ _ _ ih ih' | operation _ _ _ ih ih' | assignment _ _ _ ih ih' =>
    exact ⟨ih rfl, ih' rfl⟩

/-- Whether `d'` is the same sentence as `d`, and as good a one, with each `else` at the nearest `if`. -/
structure Regroups (d d' : Derivation q) : Prop where
  tokens : d'.tokens = d.tokens
  nearestElse : d'.NearestElse
  strict : d.Strict → d'.Strict

/-- A statement that can still take an `else` takes one. It goes to the last `if` inside. -/
theorem exists_takes_else (el : Terminal [.kwElse]) {f : Derivation .statement} (hf : f.NearestElse)
    (n : Nat) : ∀ t : Derivation .statement, t.nesting ≤ n → t.NearestElse → t.EndsOpen →
      ∃ s : Derivation .statement, s.tokens = t.tokens ++ el.1 :: f.tokens ∧ s.NearestElse ∧
        (t.Strict → f.Strict → s.Strict) := by
  induction n with
  | zero =>
    intro t hn
    cases t <;> simp [nesting] at hn
  | succ n ih =>
    intro t hn he ho
    cases t with
    | expression | print | returning | nested => exact ho.elim
    | branch k l c r t g =>
      obtain ⟨-, hm⟩ := Nat.max_le.1 (Nat.le_of_succ_le_succ hn)
      obtain ⟨hnt, hng⟩ := Nat.max_le.1 hm
      cases g with
      | absent =>
        by_cases ho : t.EndsOpen
        · obtain ⟨s, hs, hes, hstrict⟩ := ih t hnt he.2 ho
          exact ⟨.branch k l c r s .absent, by simp [tokens, hs], ⟨he.1, hes⟩,
            fun h hf => ⟨h.1, hstrict h.2.1 hf, trivial⟩⟩
        · exact ⟨.branch k l c r t (.present (.alternative el f)), by simp [tokens],
            ⟨he.1, he.2, ho, hf⟩, fun h hf => ⟨h.1, h.2.1, hf⟩⟩
      | present g =>
        cases g with
        | alternative e g =>
          obtain ⟨s, hs, hes, hstrict⟩ := ih g hng he.2.2.2 ho
          exact ⟨.branch k l c r t (.present (.alternative e s)), by simp [tokens, hs],
            ⟨he.1, he.2.1, he.2.2.1, hes⟩, fun h hf => ⟨h.1, h.2.1, hstrict h.2.2 hf⟩⟩
    | whileLoop k l c r b =>
      obtain ⟨-, hnb⟩ := Nat.max_le.1 (Nat.le_of_succ_le_succ hn)
      obtain ⟨s, hs, hes, hstrict⟩ := ih b hnb he.2 ho
      exact ⟨.whileLoop k l c r s, by simp [tokens, hs], ⟨he.1, hes⟩, fun h hf => ⟨h.1, hstrict h.2 hf⟩⟩
    | forLoop k l st c t i r b =>
      obtain ⟨-, hm⟩ := Nat.max_le.1 (Nat.le_of_succ_le_succ hn)
      obtain ⟨-, hm⟩ := Nat.max_le.1 hm
      obtain ⟨-, hnb⟩ := Nat.max_le.1 hm
      obtain ⟨s, hs, hes, hstrict⟩ := ih b hnb he.2.2.2 ho
      exact ⟨.forLoop k l st c t i r s, by simp [tokens, hs], ⟨he.1, he.2.1, he.2.2.1, hes⟩,
        fun h hf => ⟨h.1, h.2.1, h.2.2.1, hstrict h.2.2.2 hf⟩⟩

/-- An `if`, put together again from its parts. -/
theorem exists_regroups_branch (k : Terminal [.kwIf]) (l : Terminal [.leftParen])
    (c : Derivation .expression) (r : Terminal [.rightParen]) {t t' : Derivation .statement}
    {f f' : Derivation (.optional .alternative)} (ht : Regroups t t') (hf : Regroups f f') :
    ∃ d', Regroups (.branch k l c r t f) d' := by
  have hc : c.NearestElse := c.nearestElse_of_hasStatements rfl
  cases f' with
  | absent =>
    refine ⟨.branch k l c r t' .absent, ?_, ⟨hc, ht.nearestElse⟩, fun h => ⟨h.1, ht.strict h.2.1, trivial⟩⟩
    simp [Derivation.tokens, ht.tokens, ← hf.tokens]
  | present f' =>
    cases f' with
    | alternative el g =>
      have hg : g.NearestElse := hf.nearestElse
      by_cases ho : t'.EndsOpen
      · obtain ⟨s, hs, hes, hstrict⟩ := exists_takes_else el hg t'.nesting t' (Nat.le_refl _)
          ht.nearestElse ho
        refine ⟨.branch k l c r s .absent, ?_, ⟨hc, hes⟩, fun h => ⟨h.1, ?_, trivial⟩⟩
        · simp [Derivation.tokens, hs, ht.tokens, ← hf.tokens]
        · exact hstrict (ht.strict h.2.1) (hf.strict h.2.2)
      · refine ⟨.branch k l c r t' (.present (.alternative el g)), ?_, ⟨hc, ht.nearestElse, ho, hg⟩,
          fun h => ⟨h.1, ht.strict h.2.1, hf.strict h.2.2⟩⟩
        simp [Derivation.tokens, ht.tokens, ← hf.tokens]

theorem exists_regroups (d : Derivation q) : ∃ d', Regroups d d' := by
  induction d with
  | name | constant | this | identifier | grouping | operand | application | property | bare | sign
  | tightest | single | operation | plain | assignment | initializer | exprStatement | varDeclaration
  | startVariable | startExpression | startNothing =>
    exact ⟨_, rfl, nearestElse_of_hasStatements _ rfl, id⟩
  | absent | nothing => exact ⟨_, rfl, trivial, id⟩
  | expression d => exact ⟨.expression d, rfl, d.nearestElse_of_hasStatements rfl, id⟩
  | print k d t => exact ⟨.print k d t, rfl, d.nearestElse_of_hasStatements rfl, id⟩
  | returning k d t => exact ⟨.returning k d t, rfl, d.nearestElse_of_hasStatements rfl, id⟩
  | «variable» d => exact ⟨.variable d, rfl, d.nearestElse_of_hasStatements rfl, id⟩
  | present _ ih =>
    obtain ⟨d, ht, he, hs⟩ := ih
    exact ⟨.present d, ht, he, hs⟩
  | last _ ih =>
    obtain ⟨d, ht, he, hs⟩ := ih
    exact ⟨.last d, ht, he, hs⟩
  | more _ t _ ih ih' =>
    obtain ⟨d, ht, he, hs⟩ := ih
    obtain ⟨ds, hts, hes, hss⟩ := ih'
    exact ⟨.more d t ds, by simp [Derivation.tokens, ht, hts], ⟨he, hes⟩, fun h => ⟨hs h.1, hss h.2⟩⟩
  | next _ _ ih ih' =>
    obtain ⟨d, ht, he, hs⟩ := ih
    obtain ⟨ds, hts, hes, hss⟩ := ih'
    exact ⟨.next d ds, by simp [Derivation.tokens, ht, hts], ⟨he, hes⟩, fun h => ⟨hs h.1, hss h.2⟩⟩
  | block l _ r ih =>
    obtain ⟨d, ht, he, hs⟩ := ih
    exact ⟨.block l d r, by simp [Derivation.tokens, ht], he, hs⟩
  | alternative k _ ih =>
    obtain ⟨d, ht, he, hs⟩ := ih
    exact ⟨.alternative k d, by simp [Derivation.tokens, ht], he, hs⟩
  | nested _ ih =>
    obtain ⟨d, ht, he, hs⟩ := ih
    exact ⟨.nested d, ht, he, hs⟩
  | branch k l c r _ _ _ iht ihf =>
    obtain ⟨t', ht⟩ := iht
    obtain ⟨f', hf⟩ := ihf
    exact exists_regroups_branch k l c r ht hf
  | whileLoop k l c r _ _ ih =>
    obtain ⟨b, ht, he, hs⟩ := ih
    exact ⟨.whileLoop k l c r b, by simp [Derivation.tokens, ht], ⟨c.nearestElse_of_hasStatements rfl, he⟩,
      fun h => ⟨h.1, hs h.2⟩⟩
  | forLoop k l s c t i r _ _ _ _ ih =>
    obtain ⟨b, ht, he, hs⟩ := ih
    exact ⟨.forLoop k l s c t i r b, by simp [Derivation.tokens, ht], ⟨s.nearestElse_of_hasStatements rfl,
      c.nearestElse_of_hasStatements rfl, i.nearestElse_of_hasStatements rfl, he⟩,
      fun h => ⟨h.1, h.2.1, h.2.2.1, hs h.2.2.2⟩⟩
  | function n l ps r _ _ ih =>
    obtain ⟨b, ht, he, hs⟩ := ih
    exact ⟨.function n l ps r b, by simp [Derivation.tokens, ht], ⟨ps.nearestElse_of_hasStatements rfl, he⟩,
      fun h => ⟨h.1, h.2.1, hs h.2.2⟩⟩
  | statement _ ih =>
    obtain ⟨d, ht, he, hs⟩ := ih
    exact ⟨.statement d, ht, he, hs⟩
  | funDeclaration k _ ih =>
    obtain ⟨d, ht, he, hs⟩ := ih
    exact ⟨.funDeclaration k d, by simp [Derivation.tokens, ht], he, hs⟩
  | classDeclaration k n l _ r ih =>
    obtain ⟨d, ht, he, hs⟩ := ih
    exact ⟨.classDeclaration k n l d r, by simp [Derivation.tokens, ht], he, hs⟩

end Derivation
end Lox
