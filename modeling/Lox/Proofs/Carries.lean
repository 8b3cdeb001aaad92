import Lox.Tree

/-! Two programs with a state, where one does what the other does with all data translated. `Carries e s g p q`
says that from a translated state `q` ends as `p` ends, with what `p` gives translated by `g`, its state by `s` and
its error by `e`. There is a rule for each way of putting programs together. -/

namespace Lox

variable {ε σ α β γ δ : Type} {e : ε → ε} {s : σ → σ} {g : α → β} {k : γ → δ}
  {p : EStateM ε σ α} {q : EStateM ε σ β} {f : α → EStateM ε σ γ} {h : β → EStateM ε σ δ}

/-! Programs that are put together -/

theorem bind_of_ok {a : α} {c c' : σ} (hr : p c = .ok a c') (f : α → EStateM ε σ γ) : (p >>= f) c = f a c' := by
  show EStateM.bind p f c = _
  unfold EStateM.bind
  rw [hr]

theorem bind_of_error {i : ε} {c c' : σ} (hr : p c = .error i c') (f : α → EStateM ε σ γ) :
    (p >>= f) c = .error i c' := by
  show EStateM.bind p f c = _
  unfold EStateM.bind
  rw [hr]

theorem bind_eq_ok {b : γ} {c c'' : σ} (hr : (p >>= f) c = .ok b c'') :
    ∃ a c', p c = .ok a c' ∧ f a c' = .ok b c'' := by
  cases hp : p c with
  | ok a c' => exact ⟨a, c', rfl, bind_of_ok hp f ▸ hr⟩
  | error i c' => exact nomatch (bind_of_error hp f).symm.trans hr

theorem bind_eq_error {i : ε} {c c'' : σ} (hr : (p >>= f) c = .error i c'') :
    p c = .error i c'' ∨ ∃ a c', p c = .ok a c' ∧ f a c' = .error i c'' := by
  cases hp : p c with
  | ok a c' => exact .inr ⟨a, c', rfl, bind_of_ok hp f ▸ hr⟩
  | error j c' =>
    cases (bind_of_error hp f).symm.trans hr
    exact .inl rfl

/-! Programs that do the same -/

/-- The end of a run, translated. -/
def carried (e : ε → ε) (s : σ → σ) (g : α → β) : EStateM.Result ε σ α → EStateM.Result ε σ β
  | .ok a c => .ok (g a) (s c)
  | .error i c => .error (e i) (s c)

def Carries (e : ε → ε) (s : σ → σ) (g : α → β) (p : EStateM ε σ α) (q : EStateM ε σ β) : Prop :=
  ∀ c, q (s c) = carried e s g (p c)

theorem carries_pure {a : α} {b : β} (h : b = g a) : Carries e s g (pure a) (pure b) := fun _ => h ▸ rfl

theorem carries_throw {i j : ε} (h : j = e i) : Carries e s g (throw i) (throw j) := fun _ => h ▸ rfl

theorem Carries.bind (hp : Carries e s g p q) (hf : ∀ a, Carries e s k (f a) (h (g a))) :
    Carries e s k (p >>= f) (q >>= h) := by
  intro c
  show EStateM.bind q h (s c) = carried e s k (EStateM.bind p f c)
  unfold EStateM.bind
  rw [hp c]
  cases p c with
  | ok a c => exact hf a c
  | error i c => rfl

theorem Carries.map {f : α → γ} {h : β → δ} (hp : Carries e s g p q) (hf : ∀ a, h (g a) = k (f a)) :
    Carries e s k (f <$> p) (h <$> q) := by
  intro c
  show EStateM.map h q (s c) = carried e s k (EStateM.map f p c)
  unfold EStateM.map
  rw [hp c]
  cases p c with
  | ok a c => exact congrArg (EStateM.Result.ok · (s c)) (hf a)
  | error i c => rfl

/-- A program behind which only its result is put together. -/
theorem Carries.last {f : α → γ} {h : β → δ} (hp : Carries e s g p q) (hf : ∀ a, h (g a) = k (f a)) :
    Carries e s k (p >>= fun a => pure (f a)) (q >>= fun b => pure (h b)) :=
  hp.bind fun a => carries_pure (hf a)

theorem carries_ite {c : Prop} [Decidable c] {p' : EStateM ε σ α} {q' : EStateM ε σ β}
    (ht : Carries e s g p q) (hf : Carries e s g p' q') :
    Carries e s g (if c then p else p') (if c then q else q') := by
  split
  · exact ht
  · exact hf

theorem carries_get : Carries e s s get get := fun _ => rfl

theorem carries_modify {f f' : σ → σ} (h : ∀ c, f' (s c) = s (f c)) :
    Carries e s id (modify f) (modify f') := fun c => congrArg (EStateM.Result.ok PUnit.unit) (h c)

theorem Carries.mapM {p : α → EStateM ε σ γ} {q : β → EStateM ε σ δ} (hp : ∀ a, Carries e s k (p a) (q (g a)))
    (as : List α) : Carries e s (List.map k) (as.mapM p) ((as.map g).mapM q) := by
  induction as with
  | nil => exact carries_pure rfl
  | cons a as ih =>
    simp only [List.map_cons, List.mapM_cons]
    exact (hp a).bind fun _ => ih.last fun _ => rfl

end Lox
