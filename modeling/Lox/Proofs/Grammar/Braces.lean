import Lox.Proofs.Grammar.Derivation
import Mathlib.Data.List.Infix

/-! Braces in sentences. Each opening brace has its closing one behind it, so no beginning of a sentence closes more
than it opens, and the whole opens as many as it closes. -/

namespace Lox

/-- Tokens in which the braces pair up. -/
inductive Balanced : List Token → Prop where
  | nil : Balanced []
  | plain {t : Token} {ts : List Token} : t.kind ≠ .leftBrace → t.kind ≠ .rightBrace → Balanced ts →
      Balanced (t :: ts)
  | braced {l r : Token} {ts us : List Token} : l.kind = .leftBrace → r.kind = .rightBrace → Balanced ts →
      Balanced us → Balanced (l :: (ts ++ r :: us))

namespace Balanced

variable {ts us : List Token}

theorem append (hts : Balanced ts) (hus : Balanced us) : Balanced (ts ++ us) := by
  induction hts with
  | nil => exact hus
  | plain hl hr _ ih => exact .plain hl hr ih
  | braced hl hr hts _ _ ih =>
    rw [List.cons_append, List.append_assoc, List.cons_append]
    exact .braced hl hr hts ih

theorem countP_eq (h : Balanced ts) : ts.countP (·.kind = .rightBrace) = ts.countP (·.kind = .leftBrace) := by
  induction h with
  | nil => rfl
  | plain hl hr _ ih => simp [hl, hr, ih]
  | braced hl hr _ _ ih ih' => simp [hl, hr, ih, ih']; omega

/-- Every beginning has closed no more than it has opened. -/
theorem countP_le_beginning (h : Balanced ts) (hus : us <+: ts) :
    us.countP (·.kind = .rightBrace) ≤ us.countP (·.kind = .leftBrace) := by
  induction h generalizing us with
  | nil => simp [List.prefix_nil.1 hus]
  | plain hl hr _ ih =>
    rcases List.prefix_cons_iff.1 hus with rfl | ⟨vs, rfl, hvs⟩
    · simp
    · simpa [hl, hr] using ih hvs
  | @braced l r ts ts' hl hr hts _ ih ih' =>
    rcases List.prefix_cons_iff.1 hus with rfl | ⟨vs, rfl, hvs⟩
    · simp
    -- the opening brace makes up for the closing one, wherever the beginning ends
    have hle : vs.countP (·.kind = .rightBrace) ≤ vs.countP (·.kind = .leftBrace) + 1 := by
      rcases List.prefix_or_prefix_of_prefix hvs (List.prefix_append ts _) with hvs | ⟨ws, rfl⟩
      · exact Nat.le_succ_of_le (ih hvs)
      · have hbody := hts.countP_eq
        rcases List.prefix_cons_iff.1 ((List.prefix_append_right_inj ts).1 hvs) with rfl | ⟨ws, rfl, hws⟩
        · simp [hbody]
        · have hrest := ih' hws
          simp [hr, hbody]
          omega
    simp [hl]
    omega

end Balanced

def TokenKind.isBrace : TokenKind → Bool
  | leftBrace | rightBrace => true
  | _ => false

/-- Whether no operator of a level is a brace, as none of the grammar's is. -/
def Phrase.Unbraced : Phrase → Prop
  | level levels => levels.flatten.all (!·.isBrace)
  | optional p | list p | many p => p.Unbraced
  | _ => True

theorem Phrase.unbraced_level_cons {kinds : List TokenKind} {levels : List (List TokenKind)} :
    (level (kinds :: levels)).Unbraced ↔ kinds.all (!·.isBrace) ∧ (level levels).Unbraced := by
  simp [Unbraced]

namespace Derivation

variable {q : Phrase} {ts us : List Token}

theorem balanced_cons {kinds : List TokenKind} (hkinds : kinds.all (!·.isBrace)) (t : Terminal kinds)
    (h : Balanced ts) : Balanced (t.1 :: ts) := by
  have hkind : ¬ t.1.kind.isBrace := by simpa using List.all_eq_true.1 hkinds _ t.2
  exact .plain (fun hk => hkind (hk ▸ rfl)) (fun hk => hkind (hk ▸ rfl)) h

theorem balanced_braced (l : Terminal [.leftBrace]) (r : Terminal [.rightBrace]) (h : Balanced ts) :
    Balanced (l.1 :: (ts ++ [r.1])) :=
  .braced (List.mem_singleton.1 l.2) (List.mem_singleton.1 r.2) h .nil

/-- Braces stand in blocks and around the methods of a class only, and there they pair up. -/
theorem balanced_tokens (d : Derivation q) (hq : q.Unbraced) : Balanced d.tokens := by
  induction d with
  | absent | nothing => exact .nil
  | name t | constant t | this t | identifier t | startNothing t => exact balanced_cons rfl t .nil
  | operand _ ih | bare _ ih | tightest _ ih | startVariable _ ih | startExpression _ ih | expression _ ih
  | nested _ ih | statement _ ih | «variable» _ ih => exact ih trivial
  | plain _ ih => exact ih rfl
  | present _ ih | last _ ih => exact ih hq
  | single _ ih =>
    obtain ⟨-, htighter⟩ := Phrase.unbraced_level_cons.1 hq
    exact ih htighter
  | operation _ t _ ih ih' =>
    obtain ⟨hkinds, htighter⟩ := Phrase.unbraced_level_cons.1 hq
    exact (ih hq).append (balanced_cons hkinds t (ih' htighter))
  | sign t _ ih | initializer t _ ih | alternative t _ ih | funDeclaration t _ ih =>
    exact balanced_cons rfl t (ih trivial)
  | next _ _ ih ih' => exact (ih hq).append (ih' hq)
  | more _ t _ ih ih' => exact (ih hq).append (balanced_cons rfl t (ih' hq))
  | assignment _ t _ ih ih' => exact (ih rfl).append (balanced_cons rfl t (ih' trivial))
  | exprStatement _ t ih => exact (ih trivial).append (balanced_cons rfl t .nil)
  | property _ dot n ih => exact (ih trivial).append (balanced_cons rfl dot (balanced_cons rfl n .nil))
  | grouping k _ t ih | print k _ t ih | returning k _ t ih =>
    exact balanced_cons rfl k ((ih trivial).append (balanced_cons rfl t .nil))
  | varDeclaration k n _ t ih =>
    exact balanced_cons rfl k (balanced_cons rfl n ((ih trivial).append (balanced_cons rfl t .nil)))
  | application _ l _ r ih ih' =>
    exact (ih trivial).append (balanced_cons rfl l ((ih' trivial).append (balanced_cons rfl r .nil)))
  | whileLoop k l _ r _ ih ih' =>
    exact balanced_cons rfl k (balanced_cons rfl l ((ih trivial).append (balanced_cons rfl r (ih' trivial))))
  | branch k l _ r _ _ ihc iht ihf =>
    have hbranches := (iht trivial).append (ihf trivial)
    exact balanced_cons rfl k (balanced_cons rfl l ((ihc trivial).append (balanced_cons rfl r hbranches)))
  | forLoop k l _ _ t _ r _ ihs ihc ihi ihb =>
    have hbody := (ihi trivial).append (balanced_cons rfl r (ihb trivial))
    exact balanced_cons rfl k
      (balanced_cons rfl l ((ihs trivial).append ((ihc trivial).append (balanced_cons rfl t hbody))))
  | function n l _ r _ ih ih' =>
    exact balanced_cons rfl n (balanced_cons rfl l ((ih trivial).append (balanced_cons rfl r (ih' trivial))))
  | block l _ r ih => exact balanced_braced l r (ih trivial)
  | classDeclaration k n l _ r ih => exact balanced_cons rfl k (balanced_cons rfl n (balanced_braced l r (ih trivial)))

end Derivation

end Lox
