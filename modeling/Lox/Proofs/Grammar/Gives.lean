import Lox.Proofs.Grammar.Parses
import Lox.Proofs.Grammar.Yields

/-! What parsers build and where they stop, whatever they report and however often they recover. `Gives p ts Q`
says that `Q` holds of a result of `p` on the tokens `ts` and of the tokens that it leaves. -/

namespace Lox
namespace Parser

variable {α β : Type} {p : Parser α} {f : α → Parser β} {ts : List Token}
  {P Q : α → List Token → Prop} {R : β → List Token → Prop}

def Gives (p : Parser α) (ts : List Token) (Q : α → List Token → Prop) : Prop :=
  ∀ errors a c, p ⟨ts, errors⟩ = .ok a c → Q a c.rest

theorem Gives.mono (h : Gives p ts P) (hq : ∀ a after, P a after → Q a after) : Gives p ts Q :=
  fun errors a c hr => hq a c.rest (h errors a c hr)

theorem Gives.bind (h : Gives p ts P) (hf : ∀ a ts', P a ts' → Gives (f a) ts' R) :
    Gives (p >>= f) ts R := by
  intro errors b c hr
  change EStateM.bind p f _ = _ at hr
  unfold EStateM.bind at hr
  cases hp : p ⟨ts, errors⟩ with
  | ok a c' =>
    rw [hp] at hr
    exact hf a c'.rest (h errors a c' hp) c'.errors b c hr
  | error halt c' =>
    rw [hp] at hr
    cases hr

theorem gives_pure (a : α) (h : Q a ts) : Gives (pure a) ts Q := by
  intro errors a' c hr
  cases hr
  exact h

theorem gives_throw (halt : Halt) : Gives (throw halt) ts Q := fun _ _ _ hr => nomatch hr

theorem Yields.gives {S : α → Prop} (h : Yields (fun _ => True) p S) (ts : List Token) :
    Gives p ts fun a _ => S a := by
  intro errors a c hr
  have hp := h ⟨ts, errors⟩ fun _ _ => trivial
  rw [hr] at hp
  exact hp.1

theorem yields_of_gives {S : α → Prop} (h : ∀ ts, Gives p ts fun a _ => S a) :
    Yields (fun _ => True) p S := by
  intro c _
  cases hr : p c with
  | ok a c' => exact ⟨h c.rest c.errors a c' hr, fun _ _ => trivial⟩
  | error halt c' => exact fun _ _ => trivial

theorem gives_accept (kinds : List TokenKind) : Gives (accept kinds) ts (Takes kinds ts) := by
  intro errors a c hr
  unfold accept at hr
  cases ts with
  | nil =>
    cases hr
    exact ⟨nofun, rfl⟩
  | cons t ts =>
    by_cases ht : t.kind ∈ kinds
    · simp only [if_pos ht] at hr
      cases hr
      exact ⟨ht, rfl⟩
    · simp only [if_neg ht] at hr
      cases hr
      exact ⟨avoids_cons.2 ht, rfl⟩

/-- An item with one of `kinds` before it is there if and only if such a token is next. -/
theorem gives_behind (kinds : List TokenKind) (h : ∀ ts, Gives p ts Q) :
    Gives (behind kinds p) ts fun o after =>
      (o = none → Avoids kinds ts ∧ after = ts) ∧ ∀ r ∈ o, ¬ Avoids kinds ts ∧ Q r.2 after := by
  refine (gives_accept kinds).bind fun o ts' ho => ?_
  cases o with
  | none => exact gives_pure none ⟨fun _ => ho, nofun⟩
  | some t =>
    obtain ⟨ht, rfl⟩ := ho
    refine (h ts').bind fun a after ha => gives_pure (some (t, a)) ⟨nofun, ?_⟩
    intro r hr
    obtain rfl := Option.some.inj hr
    exact ⟨fun hav => avoids_cons.1 hav ht, ha⟩

end Parser
end Lox
