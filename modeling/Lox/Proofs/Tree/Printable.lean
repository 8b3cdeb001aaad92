import Lox.Proofs.Tree.Formed
import Lox.Tree.Printer

/-! Printing what parsers build. Such a tree holds no node of an unknown kind, so the only thing that can keep
it from being printed is its height. -/

namespace Lox

variable {P : Token → Prop}

theorem Expr.firstUnknownKind?_eq_none (es : List Expr) (h : ∀ e ∈ es, e.unknownKind? = none) :
    Expr.firstUnknownKind? es = none := by
  induction es with
  | nil => rfl
  | cons e es ih =>
    obtain ⟨he, hes⟩ := List.forall_mem_cons.1 h
    simp [firstUnknownKind?, he, ih hes]

theorem Stmt.firstUnknownKind?_eq_none (ss : List Stmt) (h : ∀ s ∈ ss, s.unknownKind? = none) :
    Stmt.firstUnknownKind? ss = none := by
  induction ss with
  | nil => rfl
  | cons s ss ih =>
    obtain ⟨hs, hss⟩ := List.forall_mem_cons.1 h
    simp [firstUnknownKind?, hs, ih hss]

theorem Expr.Formed.unknownKind? {e : Expr} (h : e.Formed P) : e.unknownKind? = none := by
  induction h with
  | literal | «variable» | this => rfl
  | grouping _ ih | unary _ _ ih | assign _ _ ih | get _ _ ih => exact ih
  | binary _ _ _ ihl ihr | set _ _ _ ihl ihr => simp [Expr.unknownKind?, ihl, ihr]
  | call _ _ _ ihc ihes => simp [Expr.unknownKind?, ihc, firstUnknownKind?_eq_none _ ihes]

theorem Stmt.Formed.unknownKind? {s : Stmt} (h : s.Formed P) : s.unknownKind? = none := by
  induction h with
  | expression hi | print hi => exact hi.unknownKind?
  | @var _ o _ ho | @«return» o _ ho =>
    cases o with
    | none => rfl
    | some e => exact (ho e rfl).unknownKind?
  | block _ ih => exact firstUnknownKind?_eq_none _ ih
  | function _ _ _ ih => exact firstUnknownKind?_eq_none _ ih
  | «class» _ _ _ ih => exact firstUnknownKind?_eq_none _ ih
  | @branch _ _ o hc _ _ _ _ iht ihf =>
    cases o with
    | none => simp [Stmt.unknownKind?, hc.unknownKind?, iht]
    | some s => simp [Stmt.unknownKind?, hc.unknownKind?, iht, ihf s rfl]
  | «while» hc _ _ ih => simp [Stmt.unknownKind?, hc.unknownKind?, ih]

theorem Stmt.Formed.render_eq_error {s : Stmt} (h : s.Formed P) {levels : Nat} {e : Unprintable}
    (he : s.render levels = .error e) : e = .tooDeep := by
  unfold Stmt.render guarded at he
  rw [h.unknownKind?] at he
  dsimp only at he
  split at he
  · cases he
  · exact (Except.error.inj he).symm

theorem Stmt.render_eq {s : Stmt} (h : s.unknownKind? = none) (levels : Nat) :
    s.render levels = if s.outline.height ≤ levels then .ok s.text else .error .tooDeep := by
  unfold Stmt.render guarded
  rw [h]

/-- The texts of statements, each on a line. -/
def Stmt.lines (ss : List Stmt) : String := "\n".intercalate (ss.map Stmt.text)

theorem Stmt.mapM_render_eq {ss : List Stmt} (h : ∀ s ∈ ss, s.unknownKind? = none) (levels : Nat) :
    ss.mapM (render levels) =
      if ∀ s ∈ ss, s.outline.height ≤ levels then .ok (ss.map text) else .error .tooDeep := by
  induction ss with
  | nil => rfl
  | cons s ss ih =>
    obtain ⟨hs, hss⟩ := List.forall_mem_cons.1 h
    have hall : (∀ t ∈ s :: ss, t.outline.height ≤ levels) ↔
        s.outline.height ≤ levels ∧ ∀ t ∈ ss, t.outline.height ≤ levels := List.forall_mem_cons
    rw [List.mapM_cons, render_eq hs, ih hss]
    by_cases hlow : s.outline.height ≤ levels
    · by_cases hrest : ∀ t ∈ ss, t.outline.height ≤ levels
      · rw [if_pos hlow, if_pos hrest, if_pos (hall.2 ⟨hlow, hrest⟩)]
        rfl
      · rw [if_pos hlow, if_neg hrest, if_neg fun h => hrest (hall.1 h).2]
        rfl
    · rw [if_neg hlow, if_neg fun h => hlow (hall.1 h).1]
      rfl

/-- Without unknown nodes a program is written as the lines of its statements, unless one of them is too high. -/
theorem renderProgram_eq {ss : List Stmt} (h : ∀ s ∈ ss, s.unknownKind? = none) (levels : Nat) :
    renderProgram levels ss =
      if ∀ s ∈ ss, s.outline.height ≤ levels then .ok (Stmt.lines ss) else .error .tooDeep := by
  unfold renderProgram
  rw [Stmt.mapM_render_eq h]
  split <;> rfl

theorem eq_lines_of_renderProgram {ss : List Stmt} (h : ∀ s ∈ ss, s.unknownKind? = none) {levels : Nat}
    {text : String} (ht : renderProgram levels ss = .ok text) : text = Stmt.lines ss := by
  rw [renderProgram_eq h] at ht
  split at ht
  · exact (Except.ok.inj ht).symm
  · cases ht

end Lox
