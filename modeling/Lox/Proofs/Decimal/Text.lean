import Lox.Number
import Lox.Proofs.Decimal.Interval
import Mathlib.Data.List.TakeWhile

/-! Decimal text read back as a rational, exactly. Every layout of a decimal has the value of that decimal. -/

namespace Lox

namespace Number

variable {cs ds w : List Char} {c d x : Char}

/-- The number that digits stand for. -/
def natural (ds : List Char) : ℕ := Nat.ofDigitChars 10 ds 0

theorem natural_append (ds es : List Char) : natural (ds ++ es) = natural ds * 10 ^ es.length + natural es := by
  rw [natural, Nat.ofDigitChars_append, Nat.ofDigitChars_eq_ofDigitChars_zero, Nat.mul_comm, natural, natural]

theorem natural_zeros (n : ℕ) : natural (List.replicate n '0') = 0 := by
  rw [natural, Nat.ofDigitChars_replicate_zero, Nat.mul_zero]

theorem natural_zeros_append (n : ℕ) (ds : List Char) : natural (List.replicate n '0' ++ ds) = natural ds := by
  rw [natural_append, natural_zeros, Nat.zero_mul, Nat.zero_add]

theorem natural_append_zeros (ds : List Char) (n : ℕ) :
    natural (ds ++ List.replicate n '0') = natural ds * 10 ^ n := by
  rw [natural_append, natural_zeros, Nat.add_zero, List.length_replicate]

@[simp] theorem natural_digits (n : ℕ) : natural (toString n).toList = n := by
  rw [Nat.toString_eq_ofList_toDigits, String.toList_ofList, natural, Nat.ofDigitChars_ten_toDigits]

theorem isDigit_of_mem_toString {n : ℕ} (h : c ∈ (toString n).toList) : c.isDigit := by
  rw [Nat.toString_eq_ofList_toDigits, String.toList_ofList] at h
  exact Nat.isDigit_of_mem_toDigits (by decide) (by decide) h

theorem length_toString_pos (n : ℕ) : 0 < (toString n).toList.length := by
  rw [Nat.toString_eq_ofList_toDigits, String.toList_ofList]
  exact Nat.length_toDigits_pos

/-! Reading -/

/-- Digits with at most one point among them. -/
def mantissaValue (cs : List Char) : ℚ :=
  let fraction := (cs.dropWhile (· ≠ '.')).drop 1
  natural (cs.takeWhile (· ≠ '.') ++ fraction) / 10 ^ fraction.length

/-- What follows a mantissa: nothing, or a power of ten with its sign. -/
def powerValue : List Char → ℤ
  | _ :: '-' :: ds => -natural ds
  | _ :: _ :: ds => natural ds
  | _ => 0

def decimalValue (cs : List Char) : ℚ :=
  mantissaValue (cs.takeWhile (· ≠ 'e')) * 10 ^ powerValue (cs.dropWhile (· ≠ 'e'))

section Split

variable (h : ∀ c ∈ cs, c ≠ x)
include h

theorem takeWhile_ne_self : cs.takeWhile (· ≠ x) = cs :=
  List.takeWhile_eq_self_iff.2 fun c hc => decide_eq_true (h c hc)

theorem dropWhile_ne_self : cs.dropWhile (· ≠ x) = [] :=
  List.dropWhile_eq_nil_iff.2 fun c hc => decide_eq_true (h c hc)

theorem takeWhile_ne_append (ds : List Char) : (cs ++ x :: ds).takeWhile (· ≠ x) = cs := by
  rw [List.takeWhile_append_of_pos fun c hc => decide_eq_true (h c hc),
    List.takeWhile_cons_of_neg (by simp), List.append_nil]

theorem dropWhile_ne_append (ds : List Char) : (cs ++ x :: ds).dropWhile (· ≠ x) = x :: ds := by
  rw [List.dropWhile_append_of_pos fun c hc => decide_eq_true (h c hc),
    List.dropWhile_cons_of_neg (by simp)]

end Split

theorem mantissaValue_digits (h : ∀ c ∈ ds, c ≠ '.') : mantissaValue ds = natural ds := by
  rw [mantissaValue, takeWhile_ne_self h, dropWhile_ne_self h]
  simp

theorem mantissaValue_point (h : ∀ c ∈ w, c ≠ '.') (fraction : List Char) :
    mantissaValue (w ++ '.' :: fraction) = natural (w ++ fraction) / 10 ^ fraction.length := by
  rw [mantissaValue, takeWhile_ne_append h, dropWhile_ne_append h]
  rfl

theorem decimalValue_mantissa (h : ∀ c ∈ cs, c ≠ 'e') : decimalValue cs = mantissaValue cs := by
  rw [decimalValue, takeWhile_ne_self h, dropWhile_ne_self h, show powerValue [] = 0 from rfl, zpow_zero, mul_one]

theorem decimalValue_power (h : ∀ c ∈ cs, c ≠ 'e') (ds : List Char) :
    decimalValue (cs ++ 'e' :: ds) = mantissaValue cs * 10 ^ powerValue ('e' :: ds) := by
  rw [decimalValue, takeWhile_ne_append h, dropWhile_ne_append h]

/-! Layouts -/

/-- Whether text is digits and points. -/
def Positional (cs : List Char) : Prop := ∀ c ∈ cs, c.isDigit ∨ c = '.'

theorem Positional.ne_e (h : Positional cs) : ∀ c ∈ cs, c ≠ 'e' := by
  rintro c hc rfl
  rcases h _ hc with h | h
  · exact absurd h (by decide)
  · exact absurd h (by decide)

theorem ne_point (hds : ∀ c ∈ ds, c.isDigit) : ∀ c ∈ ds, c ≠ '.' := by
  rintro c hc rfl
  exact absurd (hds _ hc) (by decide)

theorem positional_pointAfter (hds : ∀ c ∈ ds, c.isDigit) (n : ℤ) : Positional (pointAfter n ds) := by
  have hzeros (k : ℕ) : ∀ c ∈ List.replicate k '0', c.isDigit := fun c hc => by
    rw [List.eq_of_mem_replicate hc]
    rfl
  intro c hc
  unfold pointAfter at hc
  split at hc
  · simp only [List.mem_cons, List.mem_append] at hc
    rcases hc with rfl | rfl | hc | hc
    · exact .inl rfl
    · exact .inr rfl
    · exact .inl (hzeros _ c hc)
    · exact .inl (hds c hc)
  split at hc
  · simp only [List.mem_cons, List.mem_append, List.not_mem_nil, or_false] at hc
    rcases hc with (hc | hc) | rfl | rfl
    · exact .inl (hds c hc)
    · exact .inl (hzeros _ c hc)
    · exact .inr rfl
    · exact .inl rfl
  · simp only [List.mem_cons, List.mem_append] at hc
    rcases hc with hc | rfl | hc
    · exact .inl (hds c (List.mem_of_mem_take hc))
    · exact .inr rfl
    · exact .inl (hds c (List.mem_of_mem_drop hc))

/-- The first digit, and a point before the others. -/
def leading (d : Char) (ds : List Char) : List Char := d :: (if ds.isEmpty then [] else '.' :: ds)

theorem scientific_cons (width : ℕ) (e : ℤ) (d : Char) (ds : List Char) :
    scientific width e (d :: ds) = leading d ds ++
      'e' :: (if e < 0 then '-' else '+') ::
        (List.replicate (width - (toString e.natAbs).toList.length) '0' ++ (toString e.natAbs).toList) := rfl

theorem positional_leading (hds : ∀ c ∈ d :: ds, c.isDigit) : Positional (leading d ds) := by
  obtain ⟨hd, hds⟩ := List.forall_mem_cons.1 hds
  intro c hc
  unfold leading at hc
  split at hc
  · rw [List.mem_singleton.1 hc]
    exact .inl hd
  · simp only [List.mem_cons] at hc
    rcases hc with rfl | rfl | hc
    · exact .inl hd
    · exact .inr rfl
    · exact .inl (hds c hc)

theorem div_ten_pow (q : ℚ) {n : ℕ} {z : ℤ} (h : z = -n) : q / 10 ^ n = q * 10 ^ z := by
  rw [h, zpow_neg, zpow_natCast, div_eq_mul_inv]

theorem mantissaValue_pointAfter (hds : ∀ c ∈ ds, c.isDigit) (n : ℤ) :
    mantissaValue (pointAfter n ds) = natural ds * 10 ^ (n - ds.length) := by
  have hnone := ne_point hds
  unfold pointAfter
  split
  · next hn =>
    have hpoint := mantissaValue_point (w := ['0']) (by simp) (List.replicate (-n).toNat '0' ++ ds)
    have hzeros : natural ('0' :: (List.replicate (-n).toNat '0' ++ ds)) = natural ds :=
      natural_zeros_append ((-n).toNat + 1) ds
    rw [List.singleton_append, List.singleton_append, hzeros, List.length_append, List.length_replicate] at hpoint
    exact hpoint.trans (div_ten_pow _ (by omega))
  split
  · next hn =>
    have hwhole : ∀ c ∈ ds ++ List.replicate (n.toNat - ds.length) '0', c ≠ '.' := by
      intro c hc
      rcases List.mem_append.1 hc with hc | hc
      · exact hnone c hc
      · rw [List.eq_of_mem_replicate hc]
        decide
    have hzeros := natural_append_zeros ds (n.toNat - ds.length + 1)
    have hexponent : n - ds.length = ((n.toNat - ds.length : ℕ) : ℤ) := by omega
    rw [mantissaValue_point hwhole, List.append_assoc, ← List.replicate_succ', hzeros, hexponent, zpow_natCast]
    push_cast
    rw [pow_succ, List.length_singleton, pow_one, ← mul_assoc, mul_div_cancel_right₀ _ (by norm_num)]
  · have hwhole : ∀ c ∈ ds.take n.toNat, c ≠ '.' := fun c hc => hnone c (List.mem_of_mem_take hc)
    rw [mantissaValue_point hwhole, List.take_append_drop, List.length_drop]
    exact div_ten_pow _ (by omega)

theorem powerValue_sign (e : ℤ) (n : ℕ) :
    powerValue ('e' :: (if e < 0 then '-' else '+') :: (List.replicate n '0' ++ (toString e.natAbs).toList)) = e := by
  split
  · rw [powerValue, natural_zeros_append, natural_digits]
    omega
  · have hplus (ds : List Char) : powerValue ('e' :: '+' :: ds) = natural ds := rfl
    rw [hplus, natural_zeros_append, natural_digits]
    omega

theorem mantissaValue_leading (hds : ∀ c ∈ d :: ds, c.isDigit) :
    mantissaValue (leading d ds) = natural (d :: ds) * 10 ^ (-ds.length : ℤ) := by
  have hnone := ne_point hds
  cases ds with
  | nil => simpa [leading] using mantissaValue_digits hnone
  | cons c ds =>
    have hpoint := mantissaValue_point (w := [d]) (fun x hx => hnone x (by simp_all)) (c :: ds)
    exact hpoint.trans (div_ten_pow _ rfl)

theorem decimalValue_scientific (hds : ∀ c ∈ ds, c.isDigit) (hpos : ds ≠ []) (width : ℕ) (e : ℤ) :
    decimalValue (scientific width e ds) = natural ds * 10 ^ (e + 1 - ds.length) := by
  obtain ⟨d, ds, rfl⟩ := List.exists_cons_of_ne_nil hpos
  rw [scientific_cons, decimalValue_power (positional_leading hds).ne_e, powerValue_sign,
    mantissaValue_leading hds, mul_assoc, ← zpow_add₀ (by norm_num), List.length_cons]
  congr 2
  omega

theorem decimalValue_layout (l : Layout) (d : Decimal) : decimalValue (l.text d).toList = d.value := by
  have hds : ∀ c ∈ (toString d.coefficient).toList, c.isDigit := fun c hc => isDigit_of_mem_toString hc
  have hpos := List.length_pos_iff.1 (length_toString_pos d.coefficient)
  have hvalue (z : ℤ) (hz : z = d.exponent) :
      (natural (toString d.coefficient).toList : ℚ) * 10 ^ z = d.value := by
    rw [natural_digits, hz, Decimal.value]
  unfold Layout.text
  dsimp only
  rw [String.toList_ofList]
  split
  · rw [decimalValue_mantissa (positional_pointAfter hds _).ne_e, mantissaValue_pointAfter hds]
    exact hvalue _ (by omega)
  · rw [decimalValue_scientific hds hpos]
    exact hvalue _ (by omega)

/-! What the text of a number begins with and what it is made of -/

structure IsNumeral (cs : List Char) : Prop where
  head : ∃ d ds, cs = d :: ds ∧ d.isDigit
  all : ∀ c ∈ cs, c.isDigit ∨ c ∈ ['.', 'e', '+', '-']

theorem Positional.all (h : Positional cs) : ∀ c ∈ cs, c.isDigit ∨ c ∈ ['.', 'e', '+', '-'] := by
  intro c hc
  rcases h c hc with h | rfl
  · exact .inl h
  · exact .inr (by decide)

theorem isNumeral_digits (hds : ∀ c ∈ ds, c.isDigit) (hpos : ds ≠ []) : IsNumeral ds := by
  obtain ⟨d, ds, rfl⟩ := List.exists_cons_of_ne_nil hpos
  exact ⟨⟨d, ds, rfl, hds d List.mem_cons_self⟩, fun c hc => .inl (hds c hc)⟩

theorem isNumeral_pointAfter (hds : ∀ c ∈ ds, c.isDigit) (hpos : ds ≠ []) (n : ℤ) :
    IsNumeral (pointAfter n ds) := by
  obtain ⟨d, ds, rfl⟩ := List.exists_cons_of_ne_nil hpos
  have hd := hds d List.mem_cons_self
  refine ⟨?_, (positional_pointAfter hds n).all⟩
  unfold pointAfter
  split
  · exact ⟨_, _, rfl, rfl⟩
  split
  · exact ⟨_, _, rfl, hd⟩
  · next hn _ =>
    obtain ⟨k, hk⟩ : ∃ k, n.toNat = k + 1 := ⟨n.toNat - 1, by omega⟩
    rw [hk]
    exact ⟨_, _, rfl, hd⟩

theorem isNumeral_scientific (hds : ∀ c ∈ ds, c.isDigit) (hpos : ds ≠ []) (width : ℕ) (e : ℤ) :
    IsNumeral (scientific width e ds) := by
  obtain ⟨d, ds, rfl⟩ := List.exists_cons_of_ne_nil hpos
  refine ⟨⟨_, _, rfl, hds d List.mem_cons_self⟩, fun c hc => ?_⟩
  rw [scientific_cons] at hc
  simp only [List.mem_append, List.mem_cons] at hc
  rcases hc with hc | rfl | rfl | hc | hc
  · exact (positional_leading hds).all c hc
  · exact .inr (by decide)
  · right
    split <;> decide
  · rw [List.eq_of_mem_replicate hc]
    exact .inl rfl
  · exact .inl (isDigit_of_mem_toString hc)

theorem isNumeral_layout (l : Layout) (d : Decimal) : IsNumeral (l.text d).toList := by
  have hds : ∀ c ∈ (toString d.coefficient).toList, c.isDigit := fun c hc => isDigit_of_mem_toString hc
  have hpos := List.length_pos_iff.1 (length_toString_pos d.coefficient)
  unfold Layout.text
  dsimp only
  rw [String.toList_ofList]
  split
  · exact isNumeral_pointAfter hds hpos _
  · exact isNumeral_scientific hds hpos _ _

end Number
end Lox
