import Lox.Proofs.Decimal.Text
import Mathlib

/-! Numbers told apart by their texts. The bits of a finite number are its sign and its magnitude, the text has
the sign in front, and what follows rounds to that magnitude alone. -/

namespace Lox

namespace Double

/-- Whether bits are those of a finite number. -/
def FiniteBits (bits : ℕ) : Prop := bits < 2 ^ 64 ∧ bits / 2 ^ 52 % 2 ^ 11 ≠ 2047

theorem canonical_ofBits {bits : ℕ} (h : FiniteBits bits) : (ofBits bits).Canonical := by
  obtain ⟨-, hb⟩ := h
  unfold ofBits
  dsimp only [Nat.pow_eq]
  split
  · constructor <;> dsimp only <;> omega
  · constructor <;> dsimp only <;> omega

/-- The sign and the magnitude are all of the bits. -/
theorem ofBits_inj {bits bits' : ℕ} (h : FiniteBits bits) (h' : FiniteBits bits')
    (hs : 2 ^ 63 ≤ bits ↔ 2 ^ 63 ≤ bits') (he : ofBits bits = ofBits bits') : bits = bits' := by
  obtain ⟨h, -⟩ := h
  obtain ⟨h', -⟩ := h'
  unfold ofBits at he
  dsimp only [Nat.pow_eq] at he
  split at he <;> split at he <;> simp only [Double.mk.injEq] at he <;> omega

/-- A whole number is the value itself. -/
theorem holds_of_whole? {x : Double} {n : ℕ} (h : x.whole? = some n) : x.Holds n := by
  have hvalue : (n : ℚ) = x.mantissa * 2 ^ x.exponent := by
    unfold whole? at h
    dsimp only [Nat.pow_eq] at h
    split at h
    · next he =>
      obtain rfl := Option.some.inj h
      rw [Nat.cast_mul, Nat.cast_pow, ← zpow_natCast, Int.natAbs_of_nonneg he]
      rfl
    split at h
    · next he hm =>
      obtain rfl := Option.some.inj h
      have hmantissa : x.mantissa = x.mantissa / 2 ^ x.exponent.natAbs * 2 ^ x.exponent.natAbs :=
        (Nat.div_mul_cancel (Nat.dvd_of_mod_eq_zero hm)).symm
      have hexponent : x.exponent = -(x.exponent.natAbs : ℤ) := by omega
      generalize x.mantissa / 2 ^ x.exponent.natAbs = n at hmantissa
      rw [hmantissa, hexponent, Int.natAbs_neg, Int.natAbs_natCast, zpow_neg, zpow_natCast]
      push_cast
      rw [mul_inv_cancel_right₀ (by positivity)]
    · cases h
  rw [hvalue]
  exact x.holds_self

end Double

namespace Number

variable {x y : Float}

open Float.Model (Format UnpackedFloat)

theorem unpackExponent_toNat (b : BitVec 64) :
    (@UnpackedFloat.unpackExponent Format.binary64 b).toNat = b.toNat / 2 ^ 52 % 2 ^ 11 := by
  unfold UnpackedFloat.unpackExponent
  rw [BitVec.toNat_cast, BitVec.extractLsb_toNat, Nat.shiftRight_eq_div_pow]
  rfl

theorem finiteBits_toBits (h : x.isFinite) : Double.FiniteBits x.toBits.toNat := by
  refine ⟨x.toBits.toNat_lt, fun hb => ?_⟩
  have hexponent : @UnpackedFloat.unpackExponent Format.binary64 x.toModel.toBits.toBitVec = -1#11 :=
    BitVec.eq_of_toNat_eq ((unpackExponent_toNat _).trans hb)
  have hunpack : x.toModel.unpack.isFinite = true := h
  unfold Float.Model.unpack UnpackedFloat.unpack at hunpack
  dsimp only at hunpack
  rw [if_pos hexponent] at hunpack
  split at hunpack <;> cases hunpack

theorem isNaN_of_isFinite (h : x.isFinite) : x.isNaN = false := by
  change x.toModel.unpack.isFinite = true at h
  change x.toModel.unpack.isNaN = false
  cases hx : x.toModel.unpack with
  | notANumber =>
    rw [hx] at h
    cases h
  | infinity | zero | finite => rfl

theorem isInf_of_isFinite (h : x.isFinite) : x.isInf = false := by
  change x.toModel.unpack.isFinite = true at h
  change x.toModel.unpack.isInf = false
  cases hx : x.toModel.unpack with
  | infinity =>
    rw [hx] at h
    cases h
  | notANumber | zero | finite => rfl

/-! Texts -/

/-- The text of a finite number behind its sign. -/
def unsignedText (x : Float) : String :=
  match (magnitude x).whole? with
  | some n => if n < Nat.pow 10 21 then toString n else layout.text (magnitude x).shortest
  | none => layout.text (magnitude x).shortest

theorem display_eq (h : x.isFinite) : display x = signed x (unsignedText x) := by
  unfold display written unsignedText
  rw [isNaN_of_isFinite h, isInf_of_isFinite h]
  cases (magnitude x).whole? with
  | none => rfl
  | some n => exact (apply_ite (signed x) _ _ _).symm

theorem isNumeral_unsignedText (x : Float) : IsNumeral (unsignedText x).toList := by
  unfold unsignedText
  split
  · split
    · exact isNumeral_digits (fun c hc => isDigit_of_mem_toString hc) (List.length_pos_iff.1 (length_toString_pos _))
    · exact isNumeral_layout _ _
  · exact isNumeral_layout _ _

theorem decimalValue_digits {ds : List Char} (h : ∀ c ∈ ds, c.isDigit) : decimalValue ds = natural ds := by
  have hpositional : Positional ds := fun c hc => .inl (h c hc)
  rw [decimalValue_mantissa hpositional.ne_e, mantissaValue_digits (ne_point h)]

theorem holds_unsignedText (h : x.isFinite) : (magnitude x).Holds (decimalValue (unsignedText x).toList) := by
  have hshortest := Double.holds_shortest (Double.canonical_ofBits (finiteBits_toBits h))
  rw [← decimalValue_layout layout] at hshortest
  unfold unsignedText
  split
  · next n hn =>
    split
    · rw [decimalValue_digits fun c hc => isDigit_of_mem_toString hc, natural_digits]
      exact Double.holds_of_whole? hn
    · exact hshortest
  · exact hshortest

theorem toList_signed (x : Float) (s : String) :
    (signed x s).toList = if isNegative x then '-' :: s.toList else s.toList := by
  unfold signed
  split
  · rw [String.toList_append]
    rfl
  · rfl

theorem IsNumeral.ne_minus {cs ds : List Char} (h : IsNumeral cs) : cs ≠ '-' :: ds := by
  rintro rfl
  obtain ⟨d, es, he, hd⟩ := h.head
  rw [← List.head_eq_of_cons_eq he] at hd
  cases hd

/-- A minus sign in front belongs to no number but a negative one. -/
theorem signed_inj {s t : String} (hs : IsNumeral s.toList) (ht : IsNumeral t.toList)
    (h : signed x s = signed y t) : isNegative x = isNegative y ∧ s = t := by
  have hchars := congrArg String.toList h
  rw [toList_signed, toList_signed] at hchars
  cases hx : isNegative x <;> cases hy : isNegative y <;> rw [hx, hy] at hchars
  · exact ⟨rfl, String.toList_inj.1 hchars⟩
  · exact absurd hchars hs.ne_minus
  · exact absurd hchars.symm ht.ne_minus
  · exact ⟨rfl, String.toList_inj.1 (List.tail_eq_of_cons_eq hchars)⟩

/-- Finite numbers with the same text are the same. -/
theorem display_inj (hx : x.isFinite) (hy : y.isFinite) (h : display x = display y) : x = y := by
  rw [display_eq hx, display_eq hy] at h
  obtain ⟨hsign, htext⟩ := signed_inj (isNumeral_unsignedText x) (isNumeral_unsignedText y) h
  have hbx := finiteBits_toBits hx
  have hby := finiteBits_toBits hy
  have hvalue := holds_unsignedText hy
  rw [← htext] at hvalue
  have hmagnitude : magnitude x = magnitude y :=
    (holds_unsignedText hx).unique (Double.canonical_ofBits hbx) (Double.canonical_ofBits hby) hvalue
  have hbits := Double.ofBits_inj hbx hby (decide_eq_decide.1 hsign) hmagnitude
  exact Float.toBits_inj.1 (UInt64.toNat_inj.1 hbits)

end Number
end Lox
