import Lox.Proofs.Grammar.Derivation

/-! Runs of a parser that succeed. `Reads p ts a ds after` says what `p` makes of the tokens `ts`: the
result, the tokens left, and what is said on the way, whatever was said before. -/

namespace Lox
namespace Parser

variable {α β : Type} {p : Parser α} {f : α → Parser β} {ts ts' after : List Token} {a : α} {b : β}
  {ds ds' : List Diagnostic}

def Reads (p : Parser α) (ts : List Token) (a : α) (ds : List Diagnostic) (after : List Token) : Prop :=
  ∀ errors, ∃ es : Array ParseError, p ⟨ts, errors⟩ = .ok a ⟨after, errors ++ es⟩ ∧
    ∀ line, es.toList.map (·.diagnostic line) = ds

theorem reads_pure (a : α) (ts : List Token) : Reads (pure a) ts a [] ts := fun errors =>
  ⟨#[], by rw [Array.append_empty]; rfl, fun _ => rfl⟩

theorem Reads.bind (h : Reads p ts a ds ts') (hf : Reads (f a) ts' b ds' after) :
    Reads (p >>= f) ts b (ds ++ ds') after := by
  intro errors
  obtain ⟨es, hp, hes⟩ := h errors
  obtain ⟨es', hq, hes'⟩ := hf (errors ++ es)
  refine ⟨es ++ es', ?_, fun line => by rw [Array.toList_append, List.map_append, hes, hes']⟩
  rw [← Array.append_assoc, ← hq]
  show EStateM.bind p f _ = _
  simp only [EStateM.bind, hp]

/-- A step that says nothing. -/
theorem Reads.then (h : Reads p ts a [] ts') (hf : Reads (f a) ts' b ds after) :
    Reads (p >>= f) ts b ds after := h.bind hf

/-- A step behind which nothing more is said. -/
theorem Reads.finish (h : Reads p ts a ds ts') (hf : Reads (f a) ts' b [] after) :
    Reads (p >>= f) ts b ds after := by
  simpa using h.bind hf

theorem Reads.map {g : α → β} (h : Reads p ts a ds after) : Reads (g <$> p) ts (g a) ds after := by
  intro errors
  obtain ⟨es, hp, hes⟩ := h errors
  refine ⟨es, ?_, hes⟩
  show EStateM.map g p _ = _
  simp only [EStateM.map, hp]

/-- A step behind which only its result is put together. -/
theorem Reads.last {g : α → β} (h : Reads p ts a ds after) :
    Reads (p >>= fun a => pure (g a)) ts (g a) ds after :=
  h.finish (f := fun a => pure (g a)) (reads_pure (g a) after)

/-- Whether the next token is of none of `kinds`. The end of the tokens is. -/
def Avoids (kinds : List TokenKind) (ts : List Token) : Prop := ∀ t ∈ ts.head?, t.kind ∉ kinds

theorem avoids_cons {kinds : List TokenKind} {t : Token} : Avoids kinds (t :: ts) ↔ t.kind ∉ kinds := by
  simp [Avoids]

theorem Avoids.mono {kinds kinds' : List TokenKind} (h : Avoids kinds ts) (hk : kinds' ⊆ kinds) :
    Avoids kinds' ts := fun t ht hm => h t ht (hk hm)

theorem reads_place (ts : List Token) : Reads place ts ts [] ts := fun errors =>
  ⟨#[], by rw [Array.append_empty]; rfl, fun _ => rfl⟩

theorem reads_nextIs (kind : TokenKind) (ts : List Token) :
    Reads (nextIs kind) ts (ts.head?.any (·.kind = kind)) [] ts := fun errors =>
  ⟨#[], by rw [Array.append_empty]; rfl, fun _ => rfl⟩

theorem reads_nextIs_true {kind : TokenKind} (t : Terminal [kind]) (ts : List Token) :
    Reads (nextIs kind) (t.1 :: ts) true [] (t.1 :: ts) := by
  have ht : t.1.kind = kind := List.mem_singleton.1 t.2
  simpa [ht] using reads_nextIs kind (t.1 :: ts)

theorem reads_nextIs_false {kind : TokenKind} (h : Avoids [kind] ts) :
    Reads (nextIs kind) ts false [] ts := by
  have hn : ts.head?.any (·.kind = kind) = false := by
    cases ts with
    | nil => rfl
    | cons t ts => simpa [avoids_cons] using h
  exact hn ▸ reads_nextIs kind ts

theorem reads_atEnd (ts : List Token) : Reads atEnd ts ts.isEmpty [] ts := fun errors =>
  ⟨#[], by rw [Array.append_empty]; rfl, fun _ => rfl⟩

theorem reads_accept {kinds kinds' : List TokenKind} (t : Terminal kinds) (hk : kinds ⊆ kinds')
    (ts : List Token) : Reads (accept kinds') (t.1 :: ts) (some t.1) [] ts := fun errors =>
  ⟨#[], by rw [Array.append_empty, accept]; simp only [if_pos (hk t.2)], fun _ => rfl⟩

theorem reads_accept_none {kinds : List TokenKind} (h : Avoids kinds ts) :
    Reads (accept kinds) ts none [] ts := by
  refine fun errors => ⟨#[], ?_, fun _ => rfl⟩
  rw [Array.append_empty, accept]
  cases ts with
  | nil => rfl
  | cons t ts => simp only [if_neg (avoids_cons.1 h)]

theorem reads_expect {kind : TokenKind} {problem : ParseProblem} (t : Terminal [kind])
    (ts : List Token) : Reads (expect kind problem) (t.1 :: ts) t.1 [] ts :=
  (reads_accept t (List.Subset.refl _) ts).then (reads_pure t.1 ts)

theorem reads_report (t : Token) (place ts : List Token) (problem : ParseProblem) :
    Reads (report (t :: place) problem) ts () [.atToken t problem.message] ts := fun errors =>
  ⟨#[⟨t :: place, problem⟩], by rw [report, Array.push_eq_append], fun _ => rfl⟩

theorem reads_behind {kinds : List TokenKind} (t : Terminal kinds) (h : Reads p ts a ds after) :
    Reads (behind kinds p) (t.1 :: ts) (some (t.1, a)) ds after := (reads_accept t (List.Subset.refl _) ts).then h.last

theorem reads_behind_none {kinds : List TokenKind} (p : Parser α) (h : Avoids kinds ts) :
    Reads (behind kinds p) ts none [] ts := (reads_accept_none h).then (reads_pure none ts)

theorem reads_unlessAt {stop : Parser Bool} (hs : Reads stop ts false [] ts) (h : Reads p ts a ds after) :
    Reads (unlessAt stop p) ts (some a) ds after := hs.then h.map

theorem reads_unlessAt_none {stop : Parser Bool} (p : Parser α) (hs : Reads stop ts true [] ts) :
    Reads (unlessAt stop p) ts none [] ts := hs.then (reads_pure none ts)

/-- A recovering parser reads what the parser inside it reads. -/
theorem Reads.recovering (h : Reads p ts a ds after) : Reads (recovering p) ts (some a) ds after := by
  intro errors
  obtain ⟨es, hp, hes⟩ := h errors
  exact ⟨es, by simp only [Parser.recovering, hp], hes⟩

theorem Reads.limiting {p : Parser (Option α)} {a : Option α} (h : Reads p ts a ds after) :
    Reads (limiting p) ts a ds after := by
  intro errors
  obtain ⟨es, hp, hes⟩ := h errors
  exact ⟨es, by simp only [Parser.limiting, hp], hes⟩

/-- A loop over `step`, unrolled. Each turn uses up a token, and the last one leaves all as it is. -/
inductive Collects (step : Parser (Option α)) :
    List Token → List α → List Diagnostic → List Token → Prop where
  | stop {ts : List Token} : Reads step ts none [] ts → Collects step ts [] [] ts
  | turn {ts ts' after : List Token} {a : α} {as : List α} {ds ds' : List Diagnostic} :
    Reads step ts (some a) ds ts' → ts'.length < ts.length → Collects step ts' as ds' after →
      Collects step ts (a :: as) (ds ++ ds') after

variable {step : Parser (Option α)} {as : List α}

theorem Collects.readsWithin (h : Collects step ts as ds after) {left : List Token}
    (hl : ts.length ≤ left.length) : Reads (collectWithin step left) ts as ds after := by
  induction h generalizing left with
  | @stop ts h =>
    cases left with
    | nil => exact reads_pure [] ts
    | cons _ left => exact h.then (reads_pure [] ts)
  | turn h hlt _ ih =>
    cases left with
    | nil => simp at hl; subst hl; simp at hlt
    | cons _ left => exact h.bind (ih (by simp at hl; omega)).last

theorem Collects.reads (h : Collects step ts as ds after) : Reads (collect step) ts as ds after := by
  cases h with
  | stop h => exact h.then (reads_pure [] ts)
  | @turn _ ts' _ _ _ _ _ h hlt hc =>
    exact h.bind ((reads_place ts').then (hc.readsWithin (Nat.le_refl _)).last)

/-- A first item and a loop behind it. -/
def Chain (item : Parser α) (step : Parser (Option β)) (ts : List Token) (a : α) (bs : List β)
    (ds : List Diagnostic) (after : List Token) : Prop :=
  ∃ ds₁ ds₂ ts', Reads item ts a ds₁ ts' ∧ ts'.length ≤ ts.length ∧ Collects step ts' bs ds₂ after ∧
    ds = ds₁ ++ ds₂

theorem Chain.reads {γ : Type} {item : Parser α} {step : Parser (Option β)} {bs : List β}
    {g : α → List β → γ} (h : Chain item step ts a bs ds after) :
    Reads (do let a ← item; let bs ← collect step; pure (g a bs)) ts (g a bs) ds after := by
  obtain ⟨ds₁, ds₂, ts', h, -, hc, rfl⟩ := h
  exact h.bind hc.reads.last

end Parser
end Lox
