import Lox.Proofs.Machine.Links
import Lox.Proofs.Session.Unstuck

/-! The store of a session. Whatever programs a machine runs, and however they end, its scopes and objects refer to
nothing that does not exist, the ways along their links end, and what they were made as they stay. -/

namespace Lox

open Machine

/-- In every state that sessions and programs come to, inside their runs and after them, the store is linked and what
is looked up is found or not after finitely many steps. Whatever is done from there adds to the store, and no
scope, function, class or instance in it gets another parent, declaration, closure, method or class. -/
theorem stores_stay_linked :
    (∀ depth ts, ∀ s ∈ (Program.ofTokens depth ts).statements, s.Formed AnyToken) ∧
    (∀ s : Session, s.Arises → s.machine.Reachable AnyToken) ∧
    (∀ m : Machine, m.HasRun → m.Reachable AnyToken) ∧
    ∀ m : Machine, m.Reachable AnyToken → m.Linked ∧ m.Finds ∧
      (∀ m', Steps AnyToken m m' → m'.Reachable AnyToken ∧ m.Grows m') ∧
      (∀ rounds depth (e : Expr), e.Formed AnyToken → Steps AnyToken m ((evaluate rounds depth e).after m)) ∧
      (∀ rounds depth (s : Stmt), s.Formed AnyToken → Steps AnyToken m ((execute rounds depth s).after m)) ∧
      (∀ limits ss, (∀ s ∈ ss, s.Formed AnyToken) → Steps AnyToken m ((interpret limits ss).after m)) ∧
      (∀ scope m', Run.make (·.newScope m.current) m = .ok scope m' →
        Steps AnyToken m { m' with current := scope }) ∧
      ∀ f vs scope m', m.SoundFunction AnyToken f → (∀ v ∈ vs, m.Known v) → Run.enter f vs m = .ok scope m' →
        Steps AnyToken m { m' with current := scope } := by
  refine ⟨fun depth ts => Program.formed_ofTokens fun _ _ => trivial, fun s hs => hs.reachable fun _ _ => trivial,
    fun m hm => hm.reachable, fun m hm => ?_⟩
  have hsound : m.Sound AnyToken := hm.sound
  refine ⟨hsound.linked, hsound.finds, ?_, ?_, ?_, ?_, ?_, ?_⟩
  · intro m' hsteps
    exact ⟨hm.steps hsteps, hsteps.grows⟩
  · intro rounds depth e he
    exact ((Run.evaluates_executes AnyToken rounds depth).1 e he m hsound).steps
  · intro rounds depth s hs
    exact ((Run.evaluates_executes AnyToken rounds depth).2 s hs m hsound).steps
  · intro limits ss hss
    exact Run.steps_interpret limits ss hss m hsound
  · intro scope m' hmake
    cases hmake
    exact steps_into hsound.current (List.forall_mem_nil _) (List.forall_mem_nil _)
  · intro f vs scope m' hf hvs henter
    cases henter
    exact steps_into hf.closure hf.declaration.params hvs

/-- `{ { fun f() { } } }` -/
def buried : List Token :=
  [(.leftBrace, "\x7b"), (.leftBrace, "\x7b"), (.kwFun, "fun"), (.identifier, "f"), (.leftParen, "("),
    (.rightParen, ")"), (.leftBrace, "\x7b"), (.rightBrace, "\x7d"), (.rightBrace, "\x7d"),
    (.rightBrace, "\x7d"), (.eof, "")].map fun (kind, lexeme) => ⟨kind, lexeme, .nil, 1⟩

theorem stores_stay_linked_buried :
    let m := (interpret ⟨9, 9⟩
      (Program.ofTokens 9 (TokenStream.ofList buried).tokens).statements).after (fresh fun _ => 0)
    (m.functions[0]?.map FunctionObject.closure) = some 2 ∧
      ∃ way, Way m.scopes.parent? 2 way ∧ way.getLast? = some globals := by
  intro m
  have hm : m.Reachable AnyToken :=
    stores_stay_linked.2.2.1 m (.program ⟨9, 9⟩ 9 buried (.fresh fun _ => 0))
  have hsize : 2 < m.scopes.size := by decide +kernel
  obtain ⟨way, hway, hlast, -⟩ := (stores_stay_linked.2.2.2 m hm).1.outward 2 hsize
  exact ⟨by decide +kernel, way, hway, hlast⟩

end Lox
