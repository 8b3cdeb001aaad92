import Lox.Decimal.Shortest
import Mathlib.Algebra.Order.Field.Power
import Mathlib.Data.Rat.Cast.Order
import Mathlib.Tactic.Linarith
import Mathlib.Tactic.Ring

/-! The intervals of doubles. Each double has the rationals nearest to it, no rational belongs to two of them, and
the shortest decimal of a double is one of its own. -/

namespace Lox

def Decimal.value (d : Decimal) : ℚ := d.coefficient * 10 ^ d.exponent

namespace Double

/-- Whether the bits of some finite double have this magnitude. -/
structure Canonical (x : Double) : Prop where
  mantissa_lt : x.mantissa < 2 ^ 53
  le_exponent : -1074 ≤ x.exponent
  exponent_le : x.exponent ≤ 971
  normal : x.exponent ≠ -1074 → 2 ^ 52 ≤ x.mantissa

variable {x y : Double} {s : Int} {c : Nat} {q : ℚ}

/-- A quarter of the spacing above a double. -/
def quarter (x : Double) : ℚ := 2 ^ (x.exponent - 2)

def low (x : Double) : ℚ := (4 * x.mantissa - x.lowerGap : ℕ) * x.quarter

def high (x : Double) : ℚ := (4 * x.mantissa + 2 : ℕ) * x.quarter

/-- Whether a rational rounds to a double, a half going to the even one. -/
structure Holds (x : Double) (q : ℚ) : Prop where
  low_le : x.low ≤ q
  le_high : q ≤ x.high
  inside : x.mantissa % 2 = 1 → x.low < q ∧ q < x.high

theorem quarter_pos (x : Double) : 0 < x.quarter := by
  unfold quarter
  positivity

/-! Neighbours -/

/-- Below in the order of magnitudes. -/
def Below (x y : Double) : Prop :=
  x.exponent < y.exponent ∨ x.exponent = y.exponent ∧ x.mantissa < y.mantissa

theorem below_or_below (h : x ≠ y) : x.Below y ∨ y.Below x := by
  obtain ⟨m, e⟩ := x
  obtain ⟨n, f⟩ := y
  have hne : m = n → e ≠ f := by
    rintro rfl rfl
    exact h rfl
  simp only [Below]
  omega

theorem two_mul_quarter_le (h : x.exponent < y.exponent) : 2 * x.quarter ≤ y.quarter := by
  unfold quarter
  rw [← zpow_one_add₀ (by norm_num)]
  exact zpow_le_zpow_right₀ (by norm_num) (by omega)

theorem lowerGap_eq (x : Double) :
    x.lowerGap = 2 ∧ (x.mantissa = 2 ^ 52 → x.exponent = -1074) ∨
      x.lowerGap = 1 ∧ x.mantissa = 2 ^ 52 ∧ x.exponent ≠ -1074 := by
  unfold lowerGap
  split
  · next h => exact .inr ⟨rfl, h⟩
  · next h => exact .inl ⟨rfl, fun hm => not_not.1 fun he => h ⟨hm, he⟩⟩

/-- Intervals meet in an end at most, and that belongs to one of the two if either mantissa is odd. -/
theorem Below.high_le_low (hx : x.Canonical) (hy : y.Canonical) (h : x.Below y) :
    x.high ≤ y.low ∧ (x.high = y.low → x.mantissa % 2 = 1 ∨ y.mantissa % 2 = 1) := by
  have hpos := x.quarter_pos
  unfold high low
  rcases h with he | ⟨he, hm⟩
  · have hle : 4 * x.mantissa + 2 ≤ (4 * y.mantissa - y.lowerGap) * 2 ∧
        (4 * x.mantissa + 2 = (4 * y.mantissa - y.lowerGap) * 2 → x.mantissa % 2 = 1) := by
      have hlt := hx.mantissa_lt
      have hnormal := hy.normal (by have := hx.le_exponent; omega)
      have hgap := y.lowerGap_eq
      have hfirst := hx.le_exponent
      omega
    generalize 4 * y.mantissa - y.lowerGap = l at hle
    have hcast : ((4 * x.mantissa + 2 : ℕ) : ℚ) * x.quarter ≤ l * (2 * x.quarter) := by
      have : ((4 * x.mantissa + 2 : ℕ) : ℚ) ≤ l * 2 := by exact_mod_cast hle.1
      nlinarith
    have hstep : (l : ℚ) * (2 * x.quarter) ≤ l * y.quarter :=
      mul_le_mul_of_nonneg_left (two_mul_quarter_le he) (Nat.cast_nonneg l)
    refine ⟨hcast.trans hstep, fun heq => .inl (hle.2 ?_)⟩
    have hends := le_antisymm hcast (hstep.trans heq.ge)
    have hcancel : ((4 * x.mantissa + 2 : ℕ) : ℚ) = l * 2 := by
      rw [← mul_assoc] at hends
      exact mul_right_cancel₀ hpos.ne' hends
    exact_mod_cast hcancel
  · have hquarter : y.quarter = x.quarter := by rw [quarter, ← he, quarter]
    have hle : 4 * x.mantissa + 2 ≤ 4 * y.mantissa - y.lowerGap ∧
        (4 * x.mantissa + 2 = 4 * y.mantissa - y.lowerGap → x.mantissa % 2 = 1 ∨ y.mantissa % 2 = 1) := by
      have hnormal := hx.normal
      have hgap := y.lowerGap_eq
      omega
    rw [hquarter]
    refine ⟨?_, fun heq => hle.2 ?_⟩
    · exact mul_le_mul_of_nonneg_right (by exact_mod_cast hle.1) hpos.le
    · exact_mod_cast mul_right_cancel₀ hpos.ne' heq

theorem Below.not_holds (hx : x.Canonical) (hy : y.Canonical) (h : x.Below y) (hq : x.Holds q) : ¬ y.Holds q := by
  intro hq'
  obtain ⟨hle, hmeet⟩ := h.high_le_low hx hy
  have heq := le_antisymm hle (hq'.low_le.trans hq.le_high)
  rcases hmeet heq with hodd | hodd
  · exact absurd (hq.inside hodd).2 (not_lt.2 (heq.le.trans hq'.low_le))
  · exact absurd (hq'.inside hodd).1 (not_lt.2 (hq.le_high.trans heq.le))

theorem Holds.unique (hx : x.Canonical) (hy : y.Canonical) (h : x.Holds q) (h' : y.Holds q) : x = y := by
  by_contra hne
  rcases below_or_below hne with hb | hb
  · exact hb.not_holds hx hy h h'
  · exact hb.not_holds hy hx h' h

/-- A double rounds to itself. -/
theorem holds_self (x : Double) : x.Holds (x.mantissa * 2 ^ x.exponent) := by
  have hpos := x.quarter_pos
  have hvalue : (x.mantissa : ℚ) * 2 ^ x.exponent = (4 * x.mantissa : ℕ) * x.quarter := by
    have hexponent : (2 : ℚ) ^ x.exponent = 2 ^ (2 : ℤ) * x.quarter := by
      rw [quarter, ← zpow_add₀ (by norm_num)]
      congr 1
      omega
    rw [hexponent]
    push_cast
    ring
  have hlow : 4 * x.mantissa - x.lowerGap ≤ 4 * x.mantissa := Nat.sub_le _ _
  have hodd : x.mantissa % 2 = 1 → 4 * x.mantissa - x.lowerGap < 4 * x.mantissa := by
    have := x.lowerGap_eq
    omega
  rw [hvalue]
  refine ⟨?_, ?_, fun h => ⟨?_, ?_⟩⟩
  · exact mul_le_mul_of_nonneg_right (by exact_mod_cast hlow) hpos.le
  · exact mul_le_mul_of_nonneg_right (by exact_mod_cast Nat.le_add_right _ 2) hpos.le
  · exact mul_lt_mul_of_pos_right (by exact_mod_cast hodd h) hpos
  · exact mul_lt_mul_of_pos_right (by exact_mod_cast Nat.lt_add_of_pos_right (by decide)) hpos

/-! Grids -/

/-- The spacings of doubles and of decimals as whole numbers, in a unit that both are multiples of. -/
def quarterUnits (x : Double) (s : Int) : Nat := Nat.pow 2 (x.exponent - 2).toNat * Nat.pow 10 (-s).toNat

def stepUnits (x : Double) (s : Int) : Nat := Nat.pow 2 (2 - x.exponent).toNat * Nat.pow 10 s.toNat

/-- Whether the grid of multiples of `10 ^ s` has its point `c` in the interval. -/
def covers (x : Double) (s : Int) (c : Nat) : Bool :=
  if x.mantissa % 2 = 0 then
    (4 * x.mantissa - x.lowerGap) * x.quarterUnits s ≤ c * x.stepUnits s &&
      c * x.stepUnits s ≤ (4 * x.mantissa + 2) * x.quarterUnits s
  else
    (4 * x.mantissa - x.lowerGap) * x.quarterUnits s < c * x.stepUnits s &&
      c * x.stepUnits s < (4 * x.mantissa + 2) * x.quarterUnits s

/-- The greatest point of a grid that is not above a double. -/
def pointBelow (x : Double) (s : Int) : Nat := 4 * x.mantissa * x.quarterUnits s / x.stepUnits s

theorem onGrid?_eq (x : Double) (s : Int) :
    x.onGrid? s =
      if x.covers s (x.pointBelow s) then
        if x.covers s (x.pointBelow s + 1) &&
            (x.stepUnits s < 2 * (4 * x.mantissa * x.quarterUnits s % x.stepUnits s) ||
              (x.stepUnits s = 2 * (4 * x.mantissa * x.quarterUnits s % x.stepUnits s) &&
                x.pointBelow s % 2 = 1)) then
          some (x.pointBelow s + 1)
        else some (x.pointBelow s)
      else if x.covers s (x.pointBelow s + 1) then some (x.pointBelow s + 1)
      else none := rfl

theorem covers_of_onGrid? (h : x.onGrid? s = some c) : x.covers s c := by
  rw [onGrid?_eq] at h
  split at h
  · next hbelow =>
    split at h
    · next habove =>
      obtain rfl := Option.some.inj h
      exact (Bool.and_eq_true_iff.1 habove).1
    · obtain rfl := Option.some.inj h
      exact hbelow
  split at h
  · next habove =>
    obtain rfl := Option.some.inj h
    exact habove
  · cases h

theorem onGrid?_ne_none (h : x.covers s (x.pointBelow s)) : x.onGrid? s ≠ none := by
  rw [onGrid?_eq, if_pos h]
  split <;> nofun

/-- The unit. -/
def unitsPerOne (x : Double) (s : Int) : ℚ := 2 ^ (2 - x.exponent).toNat * 10 ^ (-s).toNat

theorem zpow_mul_pow_toNat {a : ℚ} (ha : a ≠ 0) {z w : ℤ} (h : z + w = 0) :
    a ^ z * a ^ w.toNat = a ^ z.toNat := by
  rw [← zpow_natCast, ← zpow_natCast, ← zpow_add₀ ha]
  congr 1
  omega

theorem quarter_mul (x : Double) (s : Int) : x.quarter * x.unitsPerOne s = (x.quarterUnits s : ℚ) := by
  have h := zpow_mul_pow_toNat (a := 2) (by norm_num) (z := x.exponent - 2) (w := 2 - x.exponent) (by omega)
  unfold quarter unitsPerOne quarterUnits
  rw [← mul_assoc, h]
  push_cast [Nat.pow_eq]
  rfl

theorem pow_mul (x : Double) (s : Int) : (10 : ℚ) ^ s * x.unitsPerOne s = (x.stepUnits s : ℚ) := by
  have h := zpow_mul_pow_toNat (a := 10) (by norm_num) (z := s) (w := -s) (by omega)
  unfold unitsPerOne stepUnits
  rw [mul_left_comm, h]
  push_cast [Nat.pow_eq]
  rfl

theorem holds_of_covers (h : x.covers s c) : x.Holds (c * 10 ^ s) := by
  have hunit : 0 < x.unitsPerOne s := by
    unfold unitsPerOne
    positivity
  have hcast (k : ℕ) : (k : ℚ) * x.quarter * x.unitsPerOne s = (k * x.quarterUnits s : ℕ) := by
    rw [mul_assoc, quarter_mul, Nat.cast_mul]
  have hpoint : (c : ℚ) * 10 ^ s * x.unitsPerOne s = (c * x.stepUnits s : ℕ) := by
    rw [mul_assoc, pow_mul, Nat.cast_mul]
  have hfrom (k : ℕ) : (k : ℚ) * x.quarter ≤ c * 10 ^ s ↔ k * x.quarterUnits s ≤ c * x.stepUnits s := by
    rw [← mul_le_mul_iff_of_pos_right hunit, hcast, hpoint, Nat.cast_le]
  have hto (k : ℕ) : (c : ℚ) * 10 ^ s ≤ k * x.quarter ↔ c * x.stepUnits s ≤ k * x.quarterUnits s := by
    rw [← mul_le_mul_iff_of_pos_right hunit, hcast, hpoint, Nat.cast_le]
  unfold covers at h
  split at h
  · next heven =>
    obtain ⟨hl, hh⟩ := Bool.and_eq_true_iff.1 h
    have hl := (hfrom _).2 (of_decide_eq_true hl)
    have hh := (hto _).2 (of_decide_eq_true hh)
    exact ⟨hl, hh, fun hodd => absurd hodd (by omega)⟩
  · obtain ⟨hl, hh⟩ := Bool.and_eq_true_iff.1 h
    have hl := (lt_iff_lt_of_le_iff_le (hto _)).2 (of_decide_eq_true hl)
    have hh := (lt_iff_lt_of_le_iff_le (hfrom _)).2 (of_decide_eq_true hh)
    exact ⟨hl.le, hh.le, fun _ => ⟨hl, hh⟩⟩

/-! The search -/

/-- A grid as fine as a quarter of the spacing has a point inside every interval. -/
theorem covers_pointBelow (hm : 0 < x.mantissa) (h : x.stepUnits s ≤ x.quarterUnits s) :
    x.covers s (x.pointBelow s) := by
  have hstep : 0 < x.stepUnits s := by
    exact Nat.mul_pos (Nat.pow_pos (by decide)) (Nat.pow_pos (by decide))
  have hdiv := Nat.div_add_mod (4 * x.mantissa * x.quarterUnits s) (x.stepUnits s)
  have hmod := Nat.mod_lt (4 * x.mantissa * x.quarterUnits s) hstep
  have hgap : (4 * x.mantissa - x.lowerGap) * x.quarterUnits s + x.quarterUnits s ≤
      4 * x.mantissa * x.quarterUnits s := by
    rw [← Nat.succ_mul]
    refine Nat.mul_le_mul_right _ ?_
    have := x.lowerGap_eq
    omega
  have hhigh : (4 * x.mantissa + 2) * x.quarterUnits s =
      4 * x.mantissa * x.quarterUnits s + 2 * x.quarterUnits s := Nat.add_mul _ _ _
  have hbelow : x.pointBelow s * x.stepUnits s =
      x.stepUnits s * (4 * x.mantissa * x.quarterUnits s / x.stepUnits s) := Nat.mul_comm _ _
  unfold covers
  split
  · simp only [Bool.and_eq_true, decide_eq_true_eq]
    omega
  · simp only [Bool.and_eq_true, decide_eq_true_eq]
    omega

theorem holds_shortestFrom (n : Nat) (s : Int) (h : x.onGrid? (s - n) ≠ none) :
    x.Holds (x.shortestFrom s n).value := by
  induction n generalizing s with
  | zero =>
    rw [Int.natCast_zero, Int.sub_zero] at h
    obtain ⟨c, hc⟩ := Option.ne_none_iff_exists'.1 h
    rw [shortestFrom, hc]
    exact holds_of_covers (covers_of_onGrid? hc)
  | succ n ih =>
    unfold shortestFrom
    split
    · next c hc => exact holds_of_covers (covers_of_onGrid? hc)
    · refine ih _ ?_
      rwa [Int.natCast_succ, Int.add_comm, ← Int.sub_sub] at h

/-- Powers compared through powers that are close to each other. -/
theorem pow_le_pow_of_le {a b p r m n : ℕ} (h : a ^ p ≤ b ^ r) (hp : p ≠ 0) (hb : 0 < b) (hmn : r * m ≤ p * n) :
    a ^ m ≤ b ^ n := by
  refine (Nat.pow_le_pow_iff_left hp).1 ?_
  calc (a ^ m) ^ p = (a ^ p) ^ m := by rw [← Nat.pow_mul, ← Nat.pow_mul, Nat.mul_comm]
    _ ≤ (b ^ r) ^ m := Nat.pow_le_pow_left h m
    _ = b ^ (r * m) := (Nat.pow_mul _ _ _).symm
    _ ≤ b ^ (p * n) := Nat.pow_le_pow_right hb hmn
    _ = (b ^ n) ^ p := by rw [Nat.mul_comm, Nat.pow_mul]

/-- The last grid that is tried is fine enough for every mantissa. -/
theorem stepUnits_le_quarterUnits (hx : x.Canonical) (hs : s ≤ (53 + x.exponent) * 30103 / 100000 - 22) :
    x.stepUnits s ≤ x.quarterUnits s := by
  have hlow := hx.le_exponent
  have hhigh := hx.exponent_le
  unfold stepUnits quarterUnits
  rcases le_or_gt 0 s with h | h
  · have htwo : (2 - x.exponent).toNat = 0 := by omega
    have hten : (-s).toNat = 0 := by omega
    have hle : 10 ^ s.toNat ≤ 2 ^ (x.exponent - 2).toNat :=
      pow_le_pow_of_le (p := 3) (r := 10) (by norm_num) (by decide) (by decide) (by omega)
    simpa [htwo, hten] using hle
  · have hten : s.toNat = 0 := by omega
    have hle : 2 ^ (2 - x.exponent).toNat ≤ 10 ^ (-s).toNat :=
      pow_le_pow_of_le (p := 23) (r := 7) (by norm_num) (by decide) (by decide) (by omega)
    rw [hten, Nat.pow_eq, Nat.pow_eq, Nat.pow_eq, Nat.pow_eq, Nat.pow_zero, Nat.mul_one]
    exact hle.trans (Nat.le_mul_of_pos_left _ (Nat.pow_pos (by decide)))

/-- The shortest decimal of a double rounds to it. -/
theorem holds_shortest (hx : x.Canonical) : x.Holds x.shortest.value := by
  unfold shortest
  split
  · next hm =>
    have hself := x.holds_self
    rw [hm] at hself
    simpa [Decimal.value] using hself
  · next hm =>
    have hlog : x.mantissa.log2 < 53 := (Nat.log2_lt hm).2 hx.mantissa_lt
    refine holds_shortestFrom 24 _ (onGrid?_ne_none (covers_pointBelow (Nat.pos_of_ne_zero hm) ?_))
    exact stepUnits_le_quarterUnits hx (by omega)

end Double
end Lox
