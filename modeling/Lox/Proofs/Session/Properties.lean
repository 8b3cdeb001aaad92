import Lox.Proofs.Session.Receivers

/-! Properties of instances. A property is what was last written to it, or else a method of the first class on the way to
the root that declares one, bound to the instance; or else there is none. To fetch it changes nothing that there was,
so what `this` is in one bound method is not changed by binding another. -/

namespace Lox
namespace Machine

open Run

variable {N : String → Prop} {D : Declaration → Prop} {P : Token → Prop} {m m' : Machine} {ws : List Write}

/-- What a property of an instance is, after all that was written. -/
structure Resolves (m : Machine) (ws : List Write) (o : InstanceId) (cls : ClassId) (name : Token) : Prop where
  written : ∀ v, lastWritten ws o name.lexeme = some v → property o name m = .ok v m
  declared : lastWritten ws o name.lexeme = none →
    ∀ c, Search m.superclass? (m.declares name.lexeme) cls (some c) → ∃ id g f m',
      (m.classes[c]?.bind (·.methods.get? name.lexeme)) = some id ∧ m.functions[id]? = some g ∧
      property o name m = .ok (.function m.functions.size) m' ∧ m'.functions[m.functions.size]? = some f ∧
      f.declaration = g.declaration ∧ f.isInitializer = g.isInitializer ∧ f.closure = m.scopes.size ∧
      m'.scopes.parent? f.closure = some g.closure ∧ m'.IsReceiver f.closure o
  undefined : lastWritten ws o name.lexeme = none →
    Search m.superclass? (m.declares name.lexeme) cls none →
      ∃ e, property o name m = .error (.failed e) m ∧ e.token = name ∧
        e.problem.message = "Undefined property '" ++ name.lexeme ++ "'."
  searched : ∃ r, ∀ r', Search m.superclass? (m.declares name.lexeme) cls r' ↔ r' = r

/-- What there was in a machine, and is in another one too: scopes and functions may have been added, and nothing
else. -/
structure Untouched (m m' : Machine) : Prop where
  others : m' = { m with scopes := m'.scopes, functions := m'.functions }
  scopes : ∀ s < m.scopes.size, m'.scopes.bindings s = m.scopes.bindings s ∧
    m'.scopes.parent? s = m.scopes.parent? s
  functions : ∀ id < m.functions.size, m'.functions[id]? = m.functions[id]?

/-! Fetching -/

theorem Recorded.exists_method (h : m.Recorded D ws) {c : ClassId} {name : String} {id : FunctionId}
    (hid : (m.classes[c]?.bind (·.methods.get? name)) = some id) : ∃ g, m.functions[id]? = some g := by
  obtain ⟨cls, hcls, hmethod⟩ := Option.bind_eq_some_iff.1 hid
  exact ⟨_, Array.getElem?_eq_getElem (h.methods c cls hcls name id hmethod)⟩

theorem Recorded.resolves (h : m.Recorded D ws) {o : InstanceId} {i : InstanceObject} (hi : m.instances[o]? = some i)
    (name : Token) : m.Resolves ws o i.cls name where
  written v hv := by
    have hfield : i.fields.get? name.lexeme = some v := (h.fields o i hi name.lexeme).trans hv
    unfold property
    rw [bind_of_ok (instanceObject_eq hi), hfield]
    rfl
  declared hnone c hc := by
    have hfield : i.fields.get? name.lexeme = none := (h.fields o i hi name.lexeme).trans hnone
    have hfound : (m.lineage i.cls).find? (m.declares name.lexeme) = some c :=
      (((h.way_lineage i.cls).search_iff _ _).1 hc).symm
    have hdeclares : m.declares name.lexeme c = true := List.find?_some hfound
    obtain ⟨id, hid⟩ := Option.isSome_iff_exists.1 hdeclares
    obtain ⟨g, hg⟩ := h.exists_method hid
    have hmethod : m.findMethod? i.cls name.lexeme = some id := by
      rw [findMethod?_eq_find?, hfound]
      exact hid
    refine ⟨id, g, _, _, hid, hg, property_eq hi hfield hmethod hg, Array.getElem?_push_size, rfl, rfl, rfl, ?_, ?_⟩
    · exact (parent?_bind m g (.instance o) m.scopes.size).trans (if_pos rfl)
    · exact isReceiver_bind m g o
  undefined hnone hc := by
    have hfield : i.fields.get? name.lexeme = none := (h.fields o i hi name.lexeme).trans hnone
    have hfound : (m.lineage i.cls).find? (m.declares name.lexeme) = none :=
      (((h.way_lineage i.cls).search_iff _ _).1 hc).symm
    have hmethod : m.findMethod? i.cls name.lexeme = none := by
      rw [findMethod?_eq_find?, hfound]
      rfl
    exact ⟨_, property_eq_error hi hfield hmethod, rfl, rfl⟩
  searched := ⟨_, (h.way_lineage i.cls).search_iff _⟩

theorem Untouched.refl (m : Machine) : m.Untouched m := ⟨rfl, fun _ _ => ⟨rfl, rfl⟩, fun _ _ => rfl⟩

theorem untouched_bound (m : Machine) (f g : FunctionObject) (receiver : Value) :
    m.Untouched ((m.bind f receiver).2.newFunction g).2 where
  others := rfl
  scopes s hs := by
    have hne : s ≠ m.scopes.size := Nat.ne_of_lt hs
    exact ⟨(bindings_bind m f receiver s).trans (if_neg hne), (parent?_bind m f receiver s).trans (if_neg hne)⟩
  functions id hid := by
    show (m.functions.push g)[id]? = _
    rw [Array.getElem?_push, if_neg (Nat.ne_of_lt hid)]

/-- To fetch a property, or to fail to, leaves everything there was as it was. -/
theorem untouched_property (o : InstanceId) (name : Token) (m : Machine) :
    m.Untouched ((property o name).after m) := by
  cases hi : m.instances[o]? with
  | none =>
    have hgone : instanceObject o m = .error (.stuck .danglingReference) m := by rw [instanceObject, hi]
    unfold property after
    rw [bind_of_error hgone]
    exact .refl m
  | some i =>
    cases hfield : i.fields.get? name.lexeme with
    | some v =>
      unfold property after
      rw [bind_of_ok (instanceObject_eq hi), hfield]
      exact .refl m
    | none =>
      cases hmethod : m.findMethod? i.cls name.lexeme with
      | none =>
        unfold after
        rw [property_eq_error hi hfield hmethod]
        exact .refl m
      | some id =>
        cases hf : m.functions[id]? with
        | some f =>
          unfold after
          rw [property_eq hi hfield hmethod hf]
          exact untouched_bound m f _ _
        | none =>
          have hgone : functionObject id m = .error (.stuck .danglingReference) m := by rw [functionObject, hf]
          unfold property after
          rw [bind_of_ok (instanceObject_eq hi), hfield]
          dsimp only
          rw [bind_of_ok (get_eq m), hmethod]
          dsimp only
          rw [bind_of_error hgone]
          exact .refl m

/-- A run of code leaves the machine where it was. -/
theorem Serves.after {α : Type} {p : Run α} {o : InstanceId} {place : Place} (hP : ThisReserved P)
    (h : Serves (.changing P) o place m) (hp : Alters P p) (hcontinues : Run.Continues p) :
    Serves (.changing P) o place (p.after m) :=
  h.later (hp m (h.this hP).1).1 fun _ => (hcontinues m).current

end Machine

open Machine Run

/-- After any number of classes, instances, writes and whatever else is done to a machine, properties are resolved by
what was written and by the superclasses; to fetch one leaves all as it was; what `this` is in a scope stays so; and
in code of a method that was fetched from an instance it is that instance, which is where calls of the method run. -/
theorem properties_resolved :
    (∀ N D clock ws m, Changes N D (fresh clock) ws m → ∀ (o : InstanceId) i, m.instances[o]? = some i →
      ∀ name, m.Resolves ws o i.cls name) ∧
    (∀ o name (m : Machine), m.Untouched ((property o name).after m)) ∧
    (∀ N D m ws m', Changes N D m ws m' → ¬ N "this" → ∀ s < m.scopes.size,
      (m'.scopes.bindings s).get? "this" = (m.scopes.bindings s).get? "this" ∧
        m'.scopes.get? s "this" = m.scopes.get? s "this") ∧
    (∀ P m, m.Coded (Declaration.Formed P) →
      (∀ o name, ∃ ws, Changes (Names P) (Declaration.Formed P) m ws ((property o name).after m)) ∧
      (∀ rounds depth (e : Expr), e.Formed P →
        ∃ ws, Changes (Names P) (Declaration.Formed P) m ws ((evaluate rounds depth e).after m)) ∧
      ∀ rounds depth (s : Stmt), s.Formed P →
        ∃ ws, Changes (Names P) (Declaration.Formed P) m ws ((execute rounds depth s).after m)) ∧
    (∀ o m, InBound Token.Spelled o m →
      (∀ rounds depth keyword, (Expr.this keyword).Formed Token.Spelled →
        evaluate rounds (depth + 1) (.this keyword) m = .ok (.instance o) m) ∧
      (∀ rounds depth (e : Expr), e.Formed Token.Spelled →
        InBound Token.Spelled o ((evaluate rounds depth e).after m)) ∧
      ∀ rounds depth (s : Stmt), s.Formed Token.Spelled →
        InBound Token.Spelled o ((execute rounds depth s).after m)) ∧
    ∀ o id m, Serves (.changing Token.Spelled) o (.function id) m →
      m.CallsServe (.changing Token.Spelled) o id := by
  refine ⟨fun N D clock ws m hchanges o i hi name => ?_, untouched_property,
    fun N D m ws m' hchanges hN s hs => ⟨hchanges.get?_this hN hs, hchanges.lookUp_this hN hs⟩,
    fun P m hm => ⟨fun o name => ?_, fun rounds depth e he => ?_, fun rounds depth s hs => ?_⟩,
    fun o m h => ⟨fun rounds depth keyword he => ?_, fun rounds depth e he => ?_, fun rounds depth s hs => ?_⟩,
    fun o id m h => h.callsServe (h.this thisReserved_spelled).2⟩
  · have hrecorded := hchanges.recorded (recorded_fresh D clock)
    rw [List.append_nil] at hrecorded
    exact hrecorded.resolves hi name
  · exact (alters_property o name m hm).1
  · exact ((alters_evaluate_execute P rounds depth).1 e he m hm).1
  · exact ((alters_evaluate_execute P rounds depth).2 s hs m hm).1
  · exact (h.this thisReserved_spelled).2.evaluate_this rounds depth he
  · exact h.after thisReserved_spelled ((alters_evaluate_execute _ rounds depth).1 e he)
      ((continues_evaluate_execute rounds depth).1 e)
  · exact h.after thisReserved_spelled ((alters_evaluate_execute _ rounds depth).2 s hs)
      ((continues_evaluate_execute rounds depth).2 s)

/-- A machine in which a class inherits the method of another, with two instances of it, of which the second has a field
of the same name. -/
def Machine.inherited : Machine :=
  let m := ((Machine.fresh fun _ => 0).newFunction Machine.greet).2
  let m := (m.newClass ⟨"Greeter", none, [("greet", 0)]⟩).2
  let m := (m.newClass ⟨"Host", some 0, []⟩).2
  ((m.newInstance 1).2.newInstance 1).2.setField 1 "greet" .nil

theorem Machine.changes_inherited : Changes (Names Token.Spelled) (Declaration.Formed Token.Spelled)
    (fresh fun _ => 0) [⟨1, "greet", .nil⟩] inherited := by
  have hgreet := Change.newFunction (N := Names Token.Spelled) (m := fresh fun _ => 0) (f := greet) formed_greet
  refine ((((hgreet.single.tail (.newClass ?_ ?_)).tail (.newClass ?_ ?_)).tail (.newInstance 1)).tail
    (.newInstance 1)).tail (.setField "greet" .nil Nat.one_lt_two)
  · intro super hsuper
    cases hsuper
  · intro n id hn
    by_cases hname : "greet" = n
    · obtain rfl : 0 = id := by simpa [Bindings.get?, hname] using hn
      exact Nat.zero_lt_one
    · simp [Bindings.get?, hname] at hn
  · intro super hsuper
    cases hsuper
    exact Nat.zero_lt_one
  · intro n id hn
    cases hn

/-- Of the first instance `greet` is the inherited method, bound to it; of the second it is what was written. -/
theorem properties_resolved_inherited :
    (∃ m' f, property 0 greet.declaration.name inherited = .ok (.function 1) m' ∧ m'.functions[1]? = some f ∧
      f.declaration = greet.declaration ∧ m'.IsReceiver f.closure 0) ∧
    property 1 greet.declaration.name inherited = .ok .nil inherited := by
  have hresolves := properties_resolved.1 _ _ _ _ _ changes_inherited
  constructor
  · obtain ⟨id, g, f, m', hid, hg, hr, hf, hdeclaration, -, -, -, hreceiver⟩ :=
      (hresolves 0 ⟨1, []⟩ rfl greet.declaration.name).declared rfl 0 (.step rfl rfl (.here rfl))
    obtain rfl : 0 = id := Option.some.inj hid
    obtain rfl : greet = g := Option.some.inj hg
    exact ⟨m', f, hr, hf, hdeclaration, hreceiver⟩
  · exact (hresolves 1 ⟨1, [("greet", .nil)]⟩ rfl greet.declaration.name).written .nil rfl

end Lox
