import Lox.Token.Item
import Mathlib.Tactic.IntervalCases
import Mathlib.Data.List.TakeWhile

/-! Numerals as decimal text. Reading decimal text has blanks, signs, powers of ten, digits of other scripts and
names of no number to look for; a numeral has none of them, so it is read as the number its digits say. -/

namespace Lox.Number

/-- What numerals are made of. -/
def numeric : List Char := ['.', '0', '1', '2', '3', '4', '5', '6', '7', '8', '9']

theorem mem_numeric {c : Char} (h : Item.isDigit c) : c ∈ numeric := by
  simp only [Item.isDigit, Bool.and_eq_true, decide_eq_true_eq, Char.le_def, UInt32.le_iff_toNat_le] at h
  have hc : c = Char.ofNat c.toNat := (Char.ofNat_toNat c).symm
  have hlow : 48 ≤ c.toNat := h.1
  have hhigh : c.toNat ≤ 57 := h.2
  generalize c.toNat = n at hc hlow hhigh
  subst hc
  interval_cases n <;> decide

theorem isDigit_eq (c : Char) : Item.isDigit c = c.isDigit := by
  simp only [Item.isDigit, Char.isDigit, ge_iff_le, Char.le_def]

/-- What can be computed of each of them holds of each. -/
theorem forall_numeric {p : Char → Prop} [DecidablePred p] (h : numeric.all fun c => p c) : ∀ c ∈ numeric, p c :=
  fun c hc => of_decide_eq_true (List.all_eq_true.1 h c hc)

theorem isDigit_of_mem_numeric : ∀ c ∈ numeric, c ≠ '.' → c.isDigit := forall_numeric (by decide)

section Numeral

variable {c : Char} {cs : List Char}

theorem strip_numeral (h : ∀ d ∈ cs, d ∈ numeric) : Text.strip (String.ofList cs) = String.ofList cs := by
  have hblank : ∀ d ∈ numeric, ¬ Text.isBlank d := forall_numeric (by decide)
  have hkeep : ∀ ds : List Char, (∀ d ∈ ds, d ∈ cs) → ds.dropWhile Text.isBlank = ds := by
    rintro (_ | ⟨d, ds⟩) hds
    · rfl
    · exact List.dropWhile_cons_of_neg (hblank d (h d (hds d List.mem_cons_self)))
  unfold Text.strip
  rw [String.toList_ofList, hkeep cs fun _ hd => hd, hkeep cs.reverse fun _ hd => List.mem_reverse.1 hd,
    List.reverse_reverse]

theorem map_plain_numeral (h : ∀ d ∈ cs, d ∈ numeric) : cs.map plain = cs := by
  have hplain : ∀ d ∈ numeric, plain d = d := forall_numeric (by decide)
  exact (List.map_congr_left fun d hd => hplain d (h d hd)).trans (List.map_id cs)

theorem ungrouped_eq_self (h : ∀ d ∈ cs, d ≠ '_') : ungrouped cs = cs := by
  fun_induction ungrouped cs with
  | case1 | case2 => simp at h
  | case3 c cs _ ih => rw [ih fun d hd => h d (List.mem_cons_of_mem c hd)]
  | case4 => rfl

theorem ofUnsigned?_numeral (hc : Item.isDigit c) (hcs : ∀ d ∈ c :: cs, d ∈ numeric)
    (hfraction : ∀ d ∈ (((c :: cs).dropWhile (· ≠ '.')).drop 1), Item.isDigit d) :
    ofUnsigned? (c :: cs) = some (ofNumeral (c :: cs)) := by
  have hname : ∀ name ∈ ["inf", "infinity", "nan"], String.ofList (c :: cs) ≠ name := by
    have hhead : ∀ d ∈ numeric, ∀ name ∈ ["inf", "infinity", "nan"], name.toList.head? ≠ some d :=
      forall_numeric (by decide)
    rintro name hname rfl
    exact hhead c (hcs c List.mem_cons_self) _ hname (by rw [String.toList_ofList]; rfl)
  simp only [List.forall_mem_cons] at hname
  have hpower : ∀ d ∈ c :: cs, decide (d ≠ 'e') = true := by
    have : ∀ d ∈ numeric, d ≠ 'e' := forall_numeric (by decide)
    exact fun d hd => decide_eq_true (this d (hcs d hd))
  have hpoint : c ≠ '.' := by
    rintro rfl
    exact absurd hc (by decide)
  have hwhole : ∀ d ∈ (c :: cs).takeWhile (· ≠ '.'), d.isDigit := fun d hd =>
    isDigit_of_mem_numeric d (hcs d (List.takeWhile_subset _ hd)) (by simpa using List.mem_takeWhile_imp hd)
  have hdigits : ((c :: cs).takeWhile (· ≠ '.') ++ ((c :: cs).dropWhile (· ≠ '.')).drop 1).all Char.isDigit := by
    refine List.all_eq_true.2 fun d hd => ?_
    rcases List.mem_append.1 hd with hd | hd
    · exact hwhole d hd
    · exact isDigit_eq d ▸ hfraction d hd
  unfold ofUnsigned? ofNumeral ofDigits
  simp only [List.takeWhile_eq_self_iff.2 hpower, List.dropWhile_eq_nil_iff.2 hpower, hname, or_self, if_false,
    hdigits]
  simp [hpoint]

theorem ofText?_numeral (hc : Item.isDigit c) (hcs : ∀ d ∈ c :: cs, d ∈ numeric)
    (hfraction : ∀ d ∈ (((c :: cs).dropWhile (· ≠ '.')).drop 1), Item.isDigit d) :
    ofText? (String.ofList (c :: cs)) = some (ofNumeral (c :: cs)) := by
  have hgroup : ∀ d ∈ numeric, d ≠ '_' := forall_numeric (by decide)
  have hsign : ∀ d ∈ numeric, Item.isDigit d → d ≠ '-' ∧ d ≠ '+' := forall_numeric (by decide)
  obtain ⟨hminus, hplus⟩ := hsign c (hcs c List.mem_cons_self) hc
  unfold ofText?
  rw [strip_numeral hcs, String.toList_ofList, map_plain_numeral hcs,
    ungrouped_eq_self fun d hd => hgroup d (hcs d hd)]
  split
  · next he => exact absurd (List.cons.inj he).1 hminus
  · next he => exact absurd (List.cons.inj he).1 hplus
  · exact ofUnsigned?_numeral hc hcs hfraction

theorem forall_ne_point (h : ∀ d ∈ cs, Item.isDigit d) : ∀ d ∈ cs, decide (d ≠ '.') = true := by
  rintro d hd
  have : ∀ d ∈ numeric, Item.isDigit d → d ≠ '.' := forall_numeric (by decide)
  exact decide_eq_true (this d (mem_numeric (h d hd)) (h d hd))

/-- Digits are read as the number they say. -/
theorem ofText?_whole (h : ∀ d ∈ c :: cs, Item.isDigit d) :
    ofText? (String.ofList (c :: cs)) = some (ofNumeral (c :: cs)) := by
  refine ofText?_numeral (h c List.mem_cons_self) (fun d hd => mem_numeric (h d hd)) ?_
  rw [List.dropWhile_eq_nil_iff.2 (forall_ne_point h)]
  exact nofun

/-- Digits around a point are read as the number they say. -/
theorem ofText?_fraction {es : List Char} (h : ∀ d ∈ c :: cs, Item.isDigit d) (hes : ∀ e ∈ es, Item.isDigit e) :
    ofText? (String.ofList (c :: cs ++ '.' :: es)) = some (ofNumeral (c :: cs ++ '.' :: es)) := by
  refine ofText?_numeral (h c List.mem_cons_self) ?_ ?_
  · intro d hd
    rcases List.mem_append.1 (show d ∈ (c :: cs) ++ '.' :: es from hd) with hd | hd
    · exact mem_numeric (h d hd)
    · rcases List.mem_cons.1 hd with rfl | hd
      · decide
      · exact mem_numeric (hes d hd)
  · show ∀ d ∈ ((((c :: cs) ++ '.' :: es).dropWhile (· ≠ '.')).drop 1), Item.isDigit d
    rw [List.dropWhile_append_of_pos (forall_ne_point h), List.dropWhile_cons_of_neg (by simp)]
    exact hes

end Numeral

end Lox.Number
